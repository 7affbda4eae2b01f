import MrBoxington.Lib.StableSort
import MrBoxington.Rustc.MappedRoundTrip

/-!
# The deepest root

Mappings are ordered by how deep their roots are as they are given, and a path is then written
from the first root that holds it once links are followed. Where links change how deep the roots
are, that need not be the deepest root that holds the path.
-/

namespace MrBoxington.Rustc

open Paths (Path isAbsolute normalizeComponents)
open BuildScript (components)
open PosixTree (Reaches)

variable {disk : Disk} {resolved path workingDir : Path} {mapping : PathMapping}
  {mappings : List PathMapping}

/-- An absolute path with links followed. -/
def Disk.resolvedForm (disk : Disk) (path : Path) : Path :=
  disk.resolvePathAliases (normalizeComponents path)

/-- What is left of a resolved path below the root of a mapping, if the root holds the path. -/
def Disk.below (disk : Disk) (resolved : Path) (mapping : PathMapping) : Option Path :=
  Paths.stripPrefix resolved (disk.resolveMappingRoot mapping.root)

/-- The root of a mapping holds a path. -/
def Disk.holds (disk : Disk) (resolved : Path) (mapping : PathMapping) : Bool :=
  (disk.below resolved mapping).isSome

/-- The text of a resolved path from the root of a mapping, if the root holds the path and the
names below it are text. -/
def Disk.textBelow (disk : Disk) (resolved : Path) (mapping : PathMapping) : Option String :=
  ((disk.below resolved mapping).filter disk.isText).map fun relative =>
    mappedText mapping.placeholder (Rustc.slashPath relative)

/-- How deep the root of a mapping is with links followed. -/
def Disk.depthOf (disk : Disk) (mapping : PathMapping) : ℕ :=
  (disk.resolveMappingRoot mapping.root).length

/-- The mapping has the deepest root of those that hold a path, with links followed. -/
structure Deepest (disk : Disk) (mappings : List PathMapping) (resolved : Path)
    (mapping : PathMapping) : Prop where
  mem : mapping ∈ mappings
  holds : disk.holds resolved mapping = true
  deepest (other : PathMapping) (hmem : other ∈ mappings)
    (hholds : disk.holds resolved other = true) : disk.depthOf other ≤ disk.depthOf mapping

/-- Of the roots that hold a path, each one that is not the deepest comes after a deeper one: it
is given with fewer components, or with as many and later. -/
def DeeperFirst (disk : Disk) (mappings : List PathMapping) (resolved : Path) : Prop :=
  let holding := mappings.filter (disk.holds resolved)
  ∀ mapping ∈ holding, (∃ deeper ∈ holding, disk.depthOf mapping < disk.depthOf deeper) →
    ∃ deeper ∈ holding, disk.depthOf mapping < disk.depthOf deeper ∧
      (mapping.root.length < deeper.root.length ∨ mapping.root.length = deeper.root.length ∧
        holding.idxOf deeper < holding.idxOf mapping)

/-- The names below the deepest root that holds a path are text. -/
def ReadsAsText (disk : Disk) (mappings : List PathMapping) (resolved : Path) : Prop :=
  ∀ mapping relative, Deepest disk mappings resolved mapping →
    resolved = disk.resolveMappingRoot mapping.root ++ relative → disk.isText relative = true

/-- The mapping whose root is the deepest as given, of those that hold a path. The first one is
taken if there are several. -/
def deepestAsGiven (disk : Disk) (mappings : List PathMapping) (resolved : Path) :
    Option PathMapping :=
  (mappings.filter (disk.holds resolved)).argmax fun mapping => mapping.root.length

private theorem findSome_eq_bind_find {α β : Type} {f : α → Option β} {items : List α} :
    items.findSome? f = (items.find? fun item => (f item).isSome).bind f := by
  induction items with
  | nil => rfl
  | cons item rest ih =>
    rw [List.findSome?_cons, List.find?_cons]
    cases hitem : f item with
    | none => simpa using ih
    | some value => simp [hitem]

private theorem normalizeResolvedMappedPath_eq (habsolute : isAbsolute path = true)
    {given : PathMapping}
    (hgiven : deepestAsGiven disk mappings (disk.resolvedForm path) = some given) :
    ∃ relative, disk.resolvedForm path = disk.resolveMappingRoot given.root ++ relative ∧
      normalizeResolvedMappedPath disk path workingDir
          (resolvePathMappings disk.resolveMappingRoot (ordered unix mappings)) =
        (disk.slashPath relative).map (mappedText given.placeholder) := by
  have hjoin : Paths.join workingDir path = path := by
    rw [Paths.join, if_pos (.inl habsolute)]
  have hfind : (ordered unix mappings).find? (disk.holds (disk.resolvedForm path)) =
      some given := by
    rw [← hgiven]
    exact StableSort.find_insertionSort
  have hholds : disk.holds (disk.resolvedForm path) given = true := List.find?_some hfind
  obtain ⟨relative, hrelative⟩ := Option.isSome_iff_exists.mp hholds
  refine ⟨relative, Paths.stripPrefix_eq_some.mp hrelative, ?_⟩
  have hfirst : ((ordered unix mappings).findSome? fun mapping =>
      (disk.below (disk.resolvedForm path) mapping).map fun relative =>
        (mapping.placeholder, relative)) = some (given.placeholder, relative) := by
    simp only [findSome_eq_bind_find, Option.isSome_map]
    change ((ordered unix mappings).find? (disk.holds (disk.resolvedForm path))).bind _ = _
    rw [hfind, Option.bind_some, hrelative]
    rfl
  unfold normalizeResolvedMappedPath
  simp only [hjoin, if_pos (Paths.isAbsolute_normalized habsolute)]
  rw [resolvePathMappings, List.findSome?_map]
  split
  · rename_i placeholder below hfound
    obtain ⟨rfl, rfl⟩ := Prod.mk.inj (Option.some.inj (hfound.symm.trans hfirst))
    rfl
  · rename_i hnone
    cases hnone.symm.trans hfirst

private theorem exists_deepestAsGiven
    (hheld : ∃ mapping ∈ mappings, disk.holds resolved mapping = true) :
    ∃ given, deepestAsGiven disk mappings resolved = some given := by
  obtain ⟨mapping, hmem, hholds⟩ := hheld
  cases hgiven : deepestAsGiven disk mappings resolved with
  | none =>
    have hnil := List.filter_eq_nil_iff.mp (List.argmax_eq_none.mp hgiven)
    exact absurd hholds (hnil mapping hmem)
  | some given => exact ⟨given, rfl⟩

/-- The root that is taken is the deepest just when deeper roots come first. -/
theorem deepest_given_iff {given : PathMapping}
    (hgiven : deepestAsGiven disk mappings resolved = some given) :
    Deepest disk mappings resolved given ↔ DeeperFirst disk mappings resolved := by
  obtain ⟨hmem, hmost, hfirst⟩ := List.argmax_eq_some_iff.mp hgiven
  have hmember := List.mem_filter.mp hmem
  constructor
  · rintro ⟨-, -, hdeepest⟩ mapping hmapping ⟨deeper, hdeeper, hlt⟩
    obtain ⟨hin, hholds⟩ := List.mem_filter.mp hdeeper
    have hbelow : disk.depthOf mapping < disk.depthOf given := hlt.trans_le (hdeepest _ hin hholds)
    refine ⟨given, hmem, hbelow, ?_⟩
    rcases (hmost mapping hmapping).lt_or_eq with hless | heq
    · exact .inl hless
    · refine .inr ⟨heq, (hfirst mapping hmapping heq.ge).lt_of_ne fun hindex => ?_⟩
      obtain rfl := (List.idxOf_inj hmem).mp hindex
      exact absurd hbelow (lt_irrefl _)
  · intro hdeeper
    refine ⟨hmember.1, hmember.2, fun other hother hholds => ?_⟩
    by_contra hlt
    obtain ⟨deeper, hin, -, hbefore⟩ := hdeeper given hmem
      ⟨other, List.mem_filter.mpr ⟨hother, hholds⟩, not_le.mp hlt⟩
    rcases hbefore with hmore | ⟨heq, hindex⟩
    · exact absurd (hmost deeper hin) (not_le.mpr hmore)
    · exact absurd (hfirst deeper hin heq.le) (not_le.mpr hindex)

private theorem textBelow_eq_some {text : String} : disk.textBelow resolved mapping = some text ↔
    ∃ relative, resolved = disk.resolveMappingRoot mapping.root ++ relative ∧
      disk.isText relative = true ∧ mappedText mapping.placeholder (slashPath relative) = text := by
  simp only [Disk.textBelow, Disk.below, Option.map_eq_some_iff, Option.filter_eq_some_iff,
    Paths.stripPrefix_eq_some, and_assoc]

/-- The deepest roots that hold a path are one root. -/
theorem Deepest.root_eq {other : PathMapping} {relative relative' : Path}
    (hmapping : Deepest disk mappings resolved mapping)
    (hother : Deepest disk mappings resolved other)
    (hrelative : resolved = disk.resolveMappingRoot mapping.root ++ relative)
    (hrelative' : resolved = disk.resolveMappingRoot other.root ++ relative') :
    relative = relative' := by
  have hdepth := (hother.deepest _ hmapping.mem hmapping.holds).antisymm
    (hmapping.deepest _ hother.mem hother.holds)
  exact (List.append_inj (hrelative.symm.trans hrelative') hdepth).2

/-- A path is written from the deepest root that holds it just when, of the roots that hold it,
deeper ones come first, and the names below the deepest one are text. No two roots of different
depth are taken to give one text. -/
theorem normalized_from_deepest_iff (habsolute : isAbsolute path = true)
    (hheld : ∃ mapping ∈ mappings, disk.holds (disk.resolvedForm path) mapping = true)
    (htexts : ∀ mapping ∈ mappings, ∀ other ∈ mappings, ∀ text,
      disk.textBelow (disk.resolvedForm path) mapping = some text →
      disk.textBelow (disk.resolvedForm path) other = some text →
      disk.depthOf mapping = disk.depthOf other) :
    (∃ mapping text, Deepest disk mappings (disk.resolvedForm path) mapping ∧
      disk.textBelow (disk.resolvedForm path) mapping = some text ∧
      normalizeResolvedMappedPath disk path workingDir
        (resolvePathMappings disk.resolveMappingRoot (ordered unix mappings)) = .ok text) ↔
    DeeperFirst disk mappings (disk.resolvedForm path) ∧
      ReadsAsText disk mappings (disk.resolvedForm path) := by
  obtain ⟨given, hgiven⟩ := exists_deepestAsGiven hheld
  obtain ⟨relative, hrelative, hnormal⟩ :=
    @normalizeResolvedMappedPath_eq disk path workingDir mappings habsolute given hgiven
  have hmember := List.mem_filter.mp (List.argmax_mem hgiven)
  rw [hnormal, ← deepest_given_iff hgiven]
  constructor
  · rintro ⟨mapping, text, hdeepest, htext, hwritten⟩
    have hisText : disk.isText relative = true := by
      by_contra hnot
      rw [Disk.slashPath, if_neg hnot] at hwritten
      cases hwritten
    rw [Disk.slashPath, if_pos hisText] at hwritten
    have hgivenText : disk.textBelow (disk.resolvedForm path) given = some text :=
      textBelow_eq_some.mpr ⟨relative, hrelative, hisText, Except.ok.inj hwritten⟩
    have hdepth := htexts given hmember.1 mapping hdeepest.mem text hgivenText htext
    have hgivenDeepest : Deepest disk mappings (disk.resolvedForm path) given :=
      ⟨hmember.1, hmember.2, fun other hmem hholds => hdepth ▸ hdeepest.deepest other hmem hholds⟩
    refine ⟨hgivenDeepest, fun other below hother hbelow => ?_⟩
    rwa [hother.root_eq hgivenDeepest hbelow hrelative]
  · rintro ⟨hdeepest, htext⟩
    have hisText := htext given relative hdeepest hrelative
    refine ⟨given, _, hdeepest, textBelow_eq_some.mpr ⟨relative, hrelative, hisText, rfl⟩, ?_⟩
    rw [Disk.slashPath, if_pos hisText]
    rfl

/-! ## A link from deep below to the root -/

/-- Far below the root is a link to a directory that holds another one. -/
noncomputable def shallowDisk : Disk :=
  .ofEntries [([], .dir), (["a"], .dir), (["a", "b"], .dir),
    (["a", "b", "link"], .link [.top, .down "x"]), (["x"], .dir), (["x", "y"], .dir)] rfl
    (by decide +kernel)

private theorem shallowDisk_link : shallowDisk.resolveMappingRoot (components "/a/b/link") =
    locationPath ["x"] := by
  have hfound : shallowDisk.canonicalize (locationPath ["a", "b", "link"]) = some ["x"] :=
    Reaches.realpath (.top rfl (.intoDir rfl rfl (.intoDir rfl rfl (.follow rfl rfl
      (.top rfl (.intoDir rfl rfl .done))))))
  rw [Disk.resolveMappingRoot_eq rfl]
  exact Disk.resolvePathAliases_of_some hfound

private theorem shallowDisk_outer : shallowDisk.resolveMappingRoot (components "/x") =
    locationPath ["x"] := by
  have hfound : shallowDisk.canonicalize (locationPath ["x"]) = some ["x"] :=
    Reaches.realpath (.top rfl (.intoDir rfl rfl .done))
  rw [Disk.resolveMappingRoot_eq rfl]
  exact Disk.resolvePathAliases_of_some hfound

private theorem shallowDisk_inner : shallowDisk.resolvedForm (components "/x/y") =
    locationPath ["x", "y"] := by
  have hfound : shallowDisk.canonicalize (locationPath ["x", "y"]) = some ["x", "y"] :=
    Reaches.realpath (.top rfl (.intoDir rfl rfl (.intoDir rfl rfl .done)))
  exact Disk.resolvePathAliases_of_some hfound

/-- The inner directory as a root. -/
def innerMapping : PathMapping := ⟨components "/x/y", "inner"⟩

/-- The outer directory as a root. -/
def outerMapping : PathMapping := ⟨components "/x", "outer"⟩

/-- The link to the outer directory as a root. -/
def linkMapping : PathMapping := ⟨components "/a/b/link", "link"⟩

private theorem shallowDisk_innerRoot :
    shallowDisk.resolveMappingRoot innerMapping.root = locationPath ["x", "y"] :=
  (Disk.resolveMappingRoot_eq rfl).trans shallowDisk_inner

private theorem shallowDisk_innerBelow :
    shallowDisk.below (locationPath ["x", "y"]) innerMapping = some [] := by
  rw [Disk.below, shallowDisk_innerRoot]
  rfl

private theorem shallowDisk_outerBelow :
    shallowDisk.below (locationPath ["x", "y"]) outerMapping = some [.down "y"] := by
  rw [Disk.below, show outerMapping.root = components "/x" from rfl, shallowDisk_outer]
  rfl

private theorem shallowDisk_linkBelow :
    shallowDisk.below (locationPath ["x", "y"]) linkMapping = some [.down "y"] := by
  rw [Disk.below, show linkMapping.root = components "/a/b/link" from rfl, shallowDisk_link]
  rfl

private theorem shallowDisk_innerDepth : shallowDisk.depthOf innerMapping = 3 := by
  rw [Disk.depthOf, shallowDisk_innerRoot]
  rfl

private theorem shallowDisk_outerDepth : shallowDisk.depthOf outerMapping = 2 := by
  rw [Disk.depthOf, show outerMapping.root = components "/x" from rfl, shallowDisk_outer]
  rfl

private theorem shallowDisk_linkDepth : shallowDisk.depthOf linkMapping = 2 := by
  rw [Disk.depthOf, show linkMapping.root = components "/a/b/link" from rfl, shallowDisk_link]
  rfl

private theorem shallowDisk_isText (path : Path) : shallowDisk.isText path = true :=
  List.all_eq_true.mpr fun step _ => by cases step <;> rfl

theorem normalized_from_deepest_iff_inner :
    ∃ mapping text,
      Deepest shallowDisk [outerMapping, innerMapping]
        (shallowDisk.resolvedForm (components "/x/y")) mapping ∧
      shallowDisk.textBelow (shallowDisk.resolvedForm (components "/x/y")) mapping = some text ∧
      normalizeResolvedMappedPath shallowDisk (components "/x/y") []
        (resolvePathMappings shallowDisk.resolveMappingRoot
          (ordered unix [outerMapping, innerMapping])) = .ok text := by
  have hdeepest : Deepest shallowDisk [outerMapping, innerMapping]
      (shallowDisk.resolvedForm (components "/x/y")) innerMapping := by
    rw [shallowDisk_inner]
    refine ⟨by simp, by rw [Disk.holds, shallowDisk_innerBelow]; rfl, fun other hmem _ => ?_⟩
    rcases List.mem_pair.mp hmem with rfl | rfl
    · rw [shallowDisk_outerDepth, shallowDisk_innerDepth]
      decide
    · exact le_refl _
  have hgiven : deepestAsGiven shallowDisk [outerMapping, innerMapping]
      (shallowDisk.resolvedForm (components "/x/y")) = some innerMapping := by
    rw [shallowDisk_inner, deepestAsGiven]
    simp only [List.filter_cons, Disk.holds, shallowDisk_outerBelow, shallowDisk_innerBelow]
    rfl
  refine (normalized_from_deepest_iff rfl ⟨innerMapping, hdeepest.mem, hdeepest.holds⟩ ?_).mpr
    ⟨(deepest_given_iff hgiven).mp hdeepest, fun _ relative _ _ => shallowDisk_isText relative⟩
  rw [shallowDisk_inner]
  have hne : shallowDisk.textBelow (locationPath ["x", "y"]) outerMapping ≠
      shallowDisk.textBelow (locationPath ["x", "y"]) innerMapping := by
    rw [Disk.textBelow, Disk.textBelow, shallowDisk_outerBelow, shallowDisk_innerBelow]
    decide
  intro mapping hmapping other hother text htext htext'
  rcases List.mem_pair.mp hmapping with rfl | rfl <;> rcases List.mem_pair.mp hother with rfl | rfl
  · rfl
  · exact absurd (htext.trans htext'.symm) hne
  · exact absurd (htext'.trans htext.symm) hne
  · rfl

/-- A root that is a link far below is taken before a root that lies deeper than what the link
leads to. -/
theorem shallow_link_first :
    shallowDisk.resolveMappingRoot linkMapping.root = locationPath ["x"] ∧
      shallowDisk.resolveMappingRoot innerMapping.root = locationPath ["x", "y"] ∧
      shallowDisk.resolvedForm (components "/x/y") = locationPath ["x", "y"] ∧
      normalizeResolvedMappedPath shallowDisk (components "/x/y") []
        (resolvePathMappings shallowDisk.resolveMappingRoot
          (ordered unix [innerMapping, linkMapping])) = .ok "$\x7blink\x7d/y" ∧
      ¬ ∃ mapping text,
        Deepest shallowDisk [innerMapping, linkMapping]
          (shallowDisk.resolvedForm (components "/x/y")) mapping ∧
        shallowDisk.textBelow (shallowDisk.resolvedForm (components "/x/y")) mapping = some text ∧
        normalizeResolvedMappedPath shallowDisk (components "/x/y") []
          (resolvePathMappings shallowDisk.resolveMappingRoot
            (ordered unix [innerMapping, linkMapping])) = .ok text := by
  have hgiven : deepestAsGiven shallowDisk [innerMapping, linkMapping]
      (shallowDisk.resolvedForm (components "/x/y")) = some linkMapping := by
    rw [shallowDisk_inner, deepestAsGiven]
    simp only [List.filter_cons, Disk.holds, shallowDisk_linkBelow, shallowDisk_innerBelow]
    rfl
  obtain ⟨relative, hrelative, hnormal⟩ := @normalizeResolvedMappedPath_eq shallowDisk
    (components "/x/y") [] [innerMapping, linkMapping] rfl linkMapping hgiven
  obtain rfl : [.down "y"] = relative := by
    rw [shallowDisk_inner] at hrelative
    exact Option.some.inj (shallowDisk_linkBelow.symm.trans
      (Paths.stripPrefix_eq_some.mpr hrelative))
  rw [Disk.slashPath, if_pos (shallowDisk_isText _)] at hnormal
  refine ⟨shallowDisk_link, shallowDisk_innerRoot, shallowDisk_inner, hnormal, ?_⟩
  rintro ⟨mapping, text, hdeepest, htext, heq⟩
  rw [shallowDisk_inner] at hdeepest htext
  obtain rfl : _ = text := Except.ok.inj (hnormal.symm.trans heq)
  rcases List.mem_pair.mp hdeepest.mem with rfl | rfl
  · rw [Disk.textBelow, shallowDisk_innerBelow] at htext
    exact absurd htext (by decide)
  · have hle := hdeepest.deepest innerMapping (by simp)
      (by rw [Disk.holds, shallowDisk_innerBelow]; rfl)
    rw [shallowDisk_innerDepth, shallowDisk_linkDepth] at hle
    exact absurd hle (by decide)

end MrBoxington.Rustc
