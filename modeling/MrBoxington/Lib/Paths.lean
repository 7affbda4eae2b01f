import MrBoxington.Lib.PosixTree
import MrBoxington.Lib.Strings

/-!
# Paths as components

What a standard library says of a path without looking at any file: its parts, and the path
without the steps that seem to lead back.
-/

namespace Paths

open PosixTree (Step)

/-- The components of a path. -/
abbrev Path := List Step

/-- The path starts at the root. -/
def isAbsolute (path : Path) : Bool := path.head? = some .top

/-- The name at the end of a path. -/
def fileName (path : Path) : Option String :=
  match path.getLast? with
  | some (.down name) => some name
  | _ => none

/-- What is before and after the last dot of a name, unless the dot is its first character. -/
def rsplitAtDot (name : String) : String × Option String :=
  match Strings.cut '.' name.toList.reverse with
  | some (after, before) =>
    if before = [] then (name, none)
    else (String.ofList before.reverse, some (String.ofList after.reverse))
  | none => (name, none)

/-- The name at the end of a path, without its extension. -/
def fileStem (path : Path) : Option String := (fileName path).map fun name => (rsplitAtDot name).1

/-- The extension of the name at the end of a path. -/
def extension (path : Path) : Option String :=
  (fileName path).bind fun name => (rsplitAtDot name).2

/-- The path without its last component. -/
def parent (path : Path) : Option Path :=
  match path.getLast? with
  | none => none
  | some .top => none
  | some _ => some path.dropLast

/-- The path with another extension. -/
def withExtension (path : Path) (extension : String) : Path :=
  match fileStem path with
  | some stem => path.dropLast ++ [.down (stem ++ "." ++ extension)]
  | none => path

/-- A path from a directory. -/
def join (directory path : Path) : Path :=
  if isAbsolute path ∨ directory = [] then path else directory ++ path.filter (· ≠ .stay)

/-- The components of another path come first. -/
def startsWith (path start : Path) : Bool := start.isPrefixOf path

/-- What follows another path. -/
def stripPrefix (path start : Path) : Option Path :=
  if start.isPrefixOf path then some (path.drop start.length) else none

/-- A name that is one component of a path, and no dots. -/
def IsName (name : String) : Prop :=
  name ≠ "" ∧ name ≠ "." ∧ name ≠ ".." ∧ '/' ∉ name.toList

instance (name : String) : Decidable (IsName name) :=
  inferInstanceAs (Decidable (_ ∧ _ ∧ _ ∧ _))

/-- One step of normalization: a step up takes the last name away. -/
def normalizeComponent (normalized : Path) : Step → Path
  | .stay => normalized
  | .up => (parent normalized).getD normalized
  | .top => [.top]
  | .down name => normalized ++ [.down name]

/-- The path without dots, and without the names that a step up follows. -/
def normalizeComponents (path : Path) : Path := path.foldl normalizeComponent []

variable {steps front : Path} {names : List String}

/-- A front is stripped exactly from the paths that start with it. -/
theorem stripPrefix_eq_some {path rest : Path} :
    stripPrefix path front = some rest ↔ path = front ++ rest := by
  unfold stripPrefix
  constructor
  · intro hstrip
    split at hstrip
    · rename_i hfront
      obtain ⟨back, rfl⟩ := List.isPrefixOf_iff_prefix.mp hfront
      rw [List.drop_left, Option.some.injEq] at hstrip
      rw [hstrip]
    · cases hstrip
  · rintro rfl
    rw [if_pos (List.isPrefixOf_iff_prefix.mpr (List.prefix_append _ _)), List.drop_left]

private theorem foldl_normalizeComponent :
    steps.foldl normalizeComponent (.top :: names.map .down) =
      .top :: (PosixTree.lexical names steps).map .down := by
  induction steps generalizing names with
  | nil => rfl
  | cons step steps ih =>
    have hstep : normalizeComponent (.top :: names.map .down) step =
        .top :: (PosixTree.advance names step).map .down := by
      cases step with
      | down name => simp [normalizeComponent, PosixTree.advance]
      | stay => rfl
      | up =>
        cases names using List.reverseRecOn with
        | nil => rfl
        | append_singleton names name =>
          simp only [normalizeComponent, PosixTree.advance, parent, List.map_append, List.map_cons,
            List.map_nil, List.dropLast_concat, ← List.cons_append, List.getLast?_concat,
            Option.getD_some]
      | top => rfl
    rw [List.foldl_cons, hstep, ih]
    rfl

theorem normalizeComponents_top :
    normalizeComponents (.top :: steps) = .top :: (PosixTree.lexical [] steps).map .down :=
  @foldl_normalizeComponent steps []

theorem isAbsolute_iff : isAbsolute steps = true ↔ ∃ rest, steps = .top :: rest := by
  cases steps with
  | nil => simp [isAbsolute]
  | cons step rest => simp [isAbsolute]

theorem isAbsolute_normalized (habsolute : isAbsolute steps = true) :
    isAbsolute (normalizeComponents steps) = true := by
  obtain ⟨rest, rfl⟩ := isAbsolute_iff.mp habsolute
  rw [normalizeComponents_top]
  rfl

/-- Names after a path are kept as they are. -/
theorem normalizeComponents_append_names :
    normalizeComponents (front ++ names.map .down) =
      normalizeComponents front ++ names.map .down := by
  unfold normalizeComponents
  rw [List.foldl_append]
  induction names generalizing front with
  | nil => rw [List.map_nil, List.foldl_nil, List.append_nil]
  | cons name names ih =>
    have := @ih (front ++ [.down name])
    rw [List.foldl_append] at this
    rw [List.map_cons, List.foldl_cons]
    refine this.trans ?_
    simp [normalizeComponent]

/-- Normalising a front first changes nothing. -/
theorem normalizeComponents_append {rest : Path} (hfront : isAbsolute front = true) :
    normalizeComponents (normalizeComponents front ++ rest) =
      normalizeComponents (front ++ rest) := by
  obtain ⟨steps, rfl⟩ := isAbsolute_iff.mp hfront
  have hagain : normalizeComponents (normalizeComponents (.top :: steps)) =
      normalizeComponents (.top :: steps) := by
    rw [normalizeComponents_top]
    exact @normalizeComponents_append_names [.top] _
  unfold normalizeComponents at hagain ⊢
  rw [List.foldl_append, hagain, List.foldl_append]

/-! ## Absolute paths -/

/-- An absolute path as it is read: after the root come names and steps up. -/
def Rooted (path : Path) : Prop :=
  ∃ steps, path = .top :: steps ∧ ∀ step ∈ steps, step = .up ∨ ∃ name, step = .down name

private theorem eq_map_down (hsteps : ∀ step ∈ steps, ∃ name, step = .down name) :
    ∃ names : List String, steps = names.map .down := by
  induction steps with
  | nil => exact ⟨[], rfl⟩
  | cons step steps ih =>
    rw [List.forall_mem_cons] at hsteps
    obtain ⟨⟨name, rfl⟩, hsteps⟩ := hsteps
    obtain ⟨names, rfl⟩ := ih hsteps
    exact ⟨name :: names, rfl⟩

/-- A rooted path without a step up is a list of names. -/
theorem Rooted.eq_names {path : Path} (hrooted : Rooted path) (hup : .up ∉ path) :
    ∃ names : List String, path = .top :: names.map .down := by
  obtain ⟨steps, rfl, hsteps⟩ := hrooted
  obtain ⟨names, rfl⟩ := eq_map_down fun step hstep =>
    (hsteps step hstep).resolve_left
      (ne_of_mem_of_not_mem hstep fun hmem => hup (List.mem_cons_of_mem _ hmem))
  exact ⟨names, rfl⟩

theorem Rooted.names_after {back : Path} (hrooted : Rooted (front ++ .up :: back))
    (hup : .up ∉ back) : ∃ names : List String, back = names.map .down := by
  obtain ⟨steps, heq, hsteps⟩ := hrooted
  cases front with
  | nil => cases heq
  | cons first front =>
    obtain ⟨-, rfl⟩ := List.cons.inj heq
    exact eq_map_down fun step hstep =>
      (hsteps step (by simp [hstep])).resolve_left (ne_of_mem_of_not_mem hstep hup)

/-- A step that occurs has a last occurrence. -/
theorem exists_last {path : Path} {step : Step} (hmem : step ∈ path) :
    ∃ front back, path = front ++ step :: back ∧ step ∉ back := by
  obtain ⟨back, front, hsplit, hback⟩ := List.eq_append_cons_of_mem (List.mem_reverse.mpr hmem)
  refine ⟨front.reverse, back.reverse, ?_, fun hstep => hback (List.mem_reverse.mp hstep)⟩
  rw [← List.reverse_reverse path, hsplit]
  simp

/-! ## Paths with volumes -/

/-- A path of a system that has a tree for each volume. -/
structure VolumePath where
  volume : Option String
  steps : Path
deriving DecidableEq

namespace VolumePath

def isAbsolute (path : VolumePath) : Bool := path.volume.isSome ∧ Paths.isAbsolute path.steps

def normalizeComponents (path : VolumePath) : VolumePath :=
  ⟨path.volume, Paths.normalizeComponents path.steps⟩

def startsWith (path start : VolumePath) : Bool :=
  path.volume = start.volume ∧ Paths.startsWith path.steps start.steps

/-- The drive that a text without separators names, and the text behind it. -/
def drive (component : String) : Option (Char × String) :=
  match component.toList with
  | letter :: ':' :: rest =>
    if letter.isAlpha then some (letter.toUpper, String.ofList rest) else none
  | _ => none

/-- A text without separators as a relative path. -/
def single (text : String) : Path :=
  if text = "" then []
  else if text = "." then [.stay]
  else if text = ".." then [.up]
  else [.down text]

/-- A name at the end of a path. One that names a drive is a path of its own, and replaces the
path. -/
def push (path : VolumePath) (component : String) : VolumePath :=
  match drive component with
  | some (letter, rest) => ⟨some (String.ofList [letter, ':']), single rest⟩
  | none => ⟨path.volume, path.steps ++ [.down component]⟩

variable {path : VolumePath} {components : List String}

private theorem startsWith_iff {start : VolumePath} :
    path.startsWith start = true ↔ path.volume = start.volume ∧ start.steps <+: path.steps := by
  simp [startsWith, Paths.startsWith]

private theorem foldl_push (hdrive : ∀ component ∈ components, drive component = none) :
    components.foldl push path = ⟨path.volume, path.steps ++ components.map .down⟩ := by
  induction components generalizing path with
  | nil => simp
  | cons component components ih =>
    rw [List.forall_mem_cons] at hdrive
    have hpush : path.push component = ⟨path.volume, path.steps ++ [.down component]⟩ := by
      simp only [push, hdrive.1]
    rw [List.foldl_cons, hpush, ih hdrive.2]
    simp

private theorem foldl_push_drive (hdrive : ∃ component ∈ components, drive component ≠ none) :
    Paths.isAbsolute (components.foldl push path).steps = false := by
  induction components using List.reverseRecOn with
  | nil => simp at hdrive
  | append_singleton front last ih =>
    rw [List.foldl_append, List.foldl_cons, List.foldl_nil, push]
    split
    · unfold single
      split_ifs <;> rfl
    · rename_i hlast
      obtain ⟨component, hmem, hsome⟩ := hdrive
      rcases List.mem_append.mp hmem with hmem | hmem
      · have hfront := ih ⟨component, hmem, hsome⟩
        cases hsteps : (front.foldl push path).steps with
        | nil => rfl
        | cons step steps =>
          rw [hsteps] at hfront
          exact hfront
      · obtain rfl := List.mem_singleton.mp hmem
        exact absurd hlast hsome

/-- Pushed components stay below exactly where none names a drive. -/
theorem startsWith_foldl_push_iff (habsolute : Paths.isAbsolute path.steps = true) :
    (components.foldl push path).startsWith path = true ↔
      ∀ component ∈ components, drive component = none := by
  rw [startsWith_iff]
  constructor
  · rintro ⟨-, back, hback⟩
    by_contra hdrive
    simp only [not_forall, exists_prop] at hdrive
    have hrelative := @foldl_push_drive path components hdrive
    obtain ⟨steps, hsteps⟩ := isAbsolute_iff.mp habsolute
    rw [← hback, hsteps] at hrelative
    cases hrelative
  · intro hdrive
    rw [foldl_push hdrive]
    exact ⟨rfl, List.prefix_append _ _⟩

end VolumePath

end Paths
