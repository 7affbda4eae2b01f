import Mathlib.Data.List.Infix
import Mathlib.Data.List.Nodup
import Mathlib.Tactic.Common

/-!
# Moving and deleting subtrees

A tree is listed by its entries, each with its path from the root. A rename carries a whole
subtree to another path, an empty directory can be removed, and a deletion that is interrupted
leaves an arbitrary part of what it was to delete. Each operation leaves every entry alone
that is not below the paths it names.
-/

namespace PathMoves

variable {κ ν : Type*} [DecidableEq κ]

/-- The entries at a path. -/
def entriesAt (tree : List (List κ × ν)) (path : List κ) : List (List κ × ν) :=
  tree.filter fun entry => entry.1 = path

/-- The entries directly in a directory. -/
def children (tree : List (List κ × ν)) (directory : List κ) : List (List κ × ν) :=
  tree.filter fun entry => entry.1 ≠ [] ∧ entry.1.dropLast = directory

/-- Whether anything lies below a path. -/
def occupied (tree : List (List κ × ν)) (path : List κ) : Bool :=
  tree.any fun entry => path <+: entry.1 ∧ entry.1 ≠ path

/-- Rename a subtree. It fails where nothing is at the source, or where the destination is a
directory with something in it; an empty one is replaced. -/
def rename (source destination : List κ) (tree : List (List κ × ν)) :
    Option (List (List κ × ν)) :=
  if (entriesAt tree source).isEmpty || occupied tree destination then none
  else some ((tree.filter fun entry => entry.1 ≠ destination).map fun entry =>
    if source <+: entry.1 then (destination ++ entry.1.drop source.length, entry.2) else entry)

/-- Remove a directory if it is empty. -/
def removeDir (path : List κ) (tree : List (List κ × ν)) : List (List κ × ν) :=
  if occupied tree path then tree else tree.filter fun entry => entry.1 ≠ path

/-- Some of the doomed entries are gone and all others are as they were: a point at which a
deletion of the doomed entries can stop. -/
def Pruned (doomed : List κ → Bool) (before after : List (List κ × ν)) : Prop :=
  after.Sublist before ∧
    (after.filter fun entry => !doomed entry.1) = before.filter fun entry => !doomed entry.1

variable {tree before after moved : List (List κ × ν)} {entry : List κ × ν}
  {path source destination directory : List κ} {doomed : List κ → Bool}

theorem mem_entriesAt : entry ∈ entriesAt tree path ↔ entry ∈ tree ∧ entry.1 = path := by
  simp [entriesAt]

theorem mem_children :
    entry ∈ children tree directory ↔ entry ∈ tree ∧ ∃ name, entry.1 = directory ++ [name] := by
  simp only [children, List.mem_filter, decide_eq_true_eq]
  refine and_congr_right fun _ => ⟨fun ⟨hne, hparent⟩ => ?_, ?_⟩
  · exact ⟨entry.1.getLast hne, by rw [← hparent, List.dropLast_append_getLast]⟩
  · rintro ⟨name, hname⟩
    simp [hname]

/-- A rename leaves an entry alone outside of its source and destination. -/
theorem mem_rename (hrename : rename source destination tree = some moved) (hmem : entry ∈ tree)
    (hsource : ¬ source <+: entry.1) (hdestination : entry.1 ≠ destination) : entry ∈ moved := by
  unfold rename at hrename
  split at hrename
  · cases hrename
  · obtain rfl := Option.some.inj hrename
    refine List.mem_map.mpr ⟨entry, List.mem_filter.mpr ⟨hmem, by simpa using hdestination⟩, ?_⟩
    rw [if_neg hsource]

/-- After a rename, what is outside of the destination was there and is not the source's. -/
theorem of_mem_rename (hrename : rename source destination tree = some moved)
    (hmem : entry ∈ moved) (hdestination : ¬ destination <+: entry.1) :
    entry ∈ tree ∧ ¬ source <+: entry.1 := by
  unfold rename at hrename
  split at hrename
  · cases hrename
  · obtain rfl := Option.some.inj hrename
    obtain ⟨origin, horigin, hentry⟩ := List.mem_map.mp hmem
    split at hentry
    · subst hentry
      exact absurd (List.prefix_append _ _) hdestination
    · subst hentry
      exact ⟨List.mem_of_mem_filter horigin, by assumption⟩

/-- Removing a directory spares the entries at other paths. -/
theorem mem_removeDir (hmem : entry ∈ tree) (hne : entry.1 ≠ path) :
    entry ∈ removeDir path tree := by
  unfold removeDir
  split
  · exact hmem
  · exact List.mem_filter.mpr ⟨hmem, by simpa using hne⟩

theorem of_mem_removeDir (hmem : entry ∈ removeDir path tree) : entry ∈ tree := by
  unfold removeDir at hmem
  split at hmem
  · exact hmem
  · exact List.mem_of_mem_filter hmem

namespace Pruned

omit [DecidableEq κ]

theorem refl : Pruned doomed before before := ⟨List.Sublist.refl _, rfl⟩

/-- Pruning spares what is not doomed. -/
theorem mem (hpruned : Pruned doomed before after) (hmem : entry ∈ before)
    (hspared : doomed entry.1 = false) : entry ∈ after := by
  have hkept : entry ∈ before.filter fun entry => !doomed entry.1 :=
    List.mem_filter.mpr ⟨hmem, by simp [hspared]⟩
  rw [← hpruned.2] at hkept
  exact List.mem_of_mem_filter hkept

/-- A selection that holds nothing doomed finds the same entries before and after. -/
theorem filter_eq (hpruned : Pruned doomed before after) {select : List κ × ν → Bool}
    (hselect : ∀ entry, select entry = true → doomed entry.1 = false) :
    after.filter select = before.filter select := by
  have hspared (tree : List (List κ × ν)) :
      (tree.filter fun entry => !doomed entry.1).filter select = tree.filter select := by
    rw [List.filter_filter]
    refine List.filter_congr fun entry _ => ?_
    cases hentry : select entry with
    | false => simp
    | true => simp [hselect entry hentry]
  rw [← hspared after, hpruned.2, hspared before]

end Pruned

end PathMoves
