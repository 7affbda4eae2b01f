import MrBoxington.Store.Collected

/-!
# Output trees that are checked one after the other

Verdicts on directories are remembered from one output tree to the next, and a directory counts
as complete while it is being checked. Without cycles every verdict is still the one that a check
with nothing remembered gives, whatever counts as missing.
-/

namespace MrBoxington.Store

open Protocol (Bytes Digest Directory RecordJson)

section Shared

variable (json : RecordJson) (objects : FileTree) (missing : Digest → Bool)

/-- Whether everything below a directory is there, for any notion of what is missing. -/
def treeIsCompleteBy (trees : MemoCheck.Memo Digest) (digest : Digest) :
    Bool × MemoCheck.Memo Digest :=
  MemoCheck.check
    (fun directory => (fileDigests json objects.read directory).all fun file => !missing file)
    (fun child => !missing child) (subdirectories json objects.read) (objects.files.length + 1)
    trees digest

/-- The verdicts on output roots that are checked with one map. -/
def checkRoots : MemoCheck.Memo Digest → List Digest → List Bool
  | _, [] => []
  | trees, root :: rest =>
    let (complete, trees) := treeIsCompleteBy json objects missing trees root
    complete :: checkRoots trees rest

/-- Nothing that a readable directory at or below the root names is missing. -/
def NothingMissing (root : Digest) : Prop :=
  ∀ directory, Below json objects.read root directory →
    (∀ file ∈ fileDigests json objects.read directory, missing file = false) ∧
      ∀ child ∈ subdirectories json objects.read directory, missing child = false

/-- The check of a collection is the one for what it counts as gone. -/
theorem treeIsComplete_eq (virtuallyRemoved : Finset Path) (trees : MemoCheck.Memo Digest)
    (digest : Digest) :
    treeIsComplete json objects virtuallyRemoved trees digest =
      treeIsCompleteBy json objects (Store.missing objects virtuallyRemoved) trees digest := rfl

end Shared

variable {json : RecordJson} {objects : FileTree} {missing : Digest → Bool}
  {trees : MemoCheck.Memo Digest}

/-- Remembered verdicts are right, for any notion of what is missing. -/
def SoundBy (json : RecordJson) (objects : FileTree) (missing : Digest → Bool)
    (trees : MemoCheck.Memo Digest) : Prop :=
  MemoCheck.Sound
    (fun directory => (fileDigests json objects.read directory).all fun file => !missing file)
    (fun child => !missing child) (subdirectories json objects.read) ∅ trees

/-- One call is right and leaves right verdicts, if those that it starts with are. -/
theorem treeIsCompleteBy_spec (hacyclic : AcyclicDirectories json objects.read)
    (hsound : SoundBy json objects missing trees) (root : Digest) :
    ((treeIsCompleteBy json objects missing trees root).1 = true ↔
      NothingMissing json objects missing root) ∧
    SoundBy json objects missing (treeIsCompleteBy json objects missing trees root).2 := by
  have hfuel : MemoCheck.unseen
      (objects.files.filterMap fun file => digestFromPath file.path).toFinset trees <
        objects.files.length + 1 := by
    refine Nat.lt_succ_of_le (Nat.le_trans (Finset.card_filter_le _ _) ?_)
    exact Nat.le_trans (List.toFinset_card_le _) (List.length_filterMap_le _ _)
  obtain ⟨hverdict, hkept, -⟩ := MemoCheck.check_spec hacyclic
    (fun _ hchildren => mem_parents hchildren) root hsound (by simp) hfuel
  refine ⟨hverdict.trans ?_, hkept⟩
  unfold MemoCheck.Complete NothingMissing Below MemoCheck.Child
  simp only [List.all_eq_true, Bool.not_eq_true']

private theorem checkRoots_sound (hacyclic : AcyclicDirectories json objects.read)
    (hsound : SoundBy json objects missing trees) (roots : List Digest) :
    List.Forall₂ (fun root complete => complete = true ↔ NothingMissing json objects missing root)
      roots (checkRoots json objects missing trees roots) := by
  -- The map stays right from call to call.
  induction roots generalizing trees with
  | nil => exact .nil
  | cons root rest ih =>
    obtain ⟨hverdict, hkept⟩ := treeIsCompleteBy_spec hacyclic hsound root
    exact .cons hverdict (ih hkept)

/-- Every verdict of a sequence of checks with one map says whether something is missing, and is
the verdict of a check with an empty map. -/
theorem checkRoots_iff (json : RecordJson) (objects : FileTree) (missing : Digest → Bool)
    (hacyclic : AcyclicDirectories json objects.read) (roots : List Digest) :
    List.Forall₂ (fun root complete =>
        (complete = true ↔ NothingMissing json objects missing root) ∧
          complete = (treeIsCompleteBy json objects missing (fun _ => none) root).1)
      roots (checkRoots json objects missing (fun _ => none) roots) := by
  have hempty : SoundBy json objects missing fun _ => none :=
    fun _ _ hverdict => absurd hverdict (by simp)
  refine (checkRoots_sound hacyclic hempty roots).imp fun root complete hverdict => ⟨hverdict, ?_⟩
  exact Bool.eq_iff_iff.mpr (hverdict.trans (treeIsCompleteBy_spec hacyclic hempty root).1.symm)

/-- A JSON library that reads a directory with one directory in it. -/
def nestedJson : RecordJson where
  actionResult _ := none
  directory bytes := if bytes = [1] then some ⟨[⟨plainDigest 'b' 1, 0, "b"⟩], [], [], 1⟩ else none
  rustcMetadata _ := none
  capturedOutput _ := none

/-- Two output trees with the same directory in them. -/
def nestedObjects : FileTree where
  files := [plainObject 'a' [1] 0, plainObject 'b' [2] 0]
  distinct := by decide +kernel

private theorem nestedObjects_acyclic : AcyclicDirectories nestedJson nestedObjects.read := by
  have hchild : ∀ parent child, child ∈ subdirectories nestedJson nestedObjects.read parent →
      child = plainDigest 'b' 1 := by
    intro parent child hmem
    unfold subdirectories at hmem
    split at hmem
    · cases hmem
    · rename_i directory hread
      obtain ⟨bytes, -, hbytes⟩ := Option.bind_eq_some_iff.mp hread
      dsimp only [nestedJson] at hbytes
      split at hbytes
      · rw [← Option.some.inj hbytes] at hmem
        exact List.mem_singleton.mp hmem
      · cases hbytes
  have hleaf : subdirectories nestedJson nestedObjects.read (plainDigest 'b' 1) = [] := by
    decide +kernel
  intro node hcycle
  obtain ⟨last, -, hend⟩ := Relation.TransGen.tail'_iff.mp hcycle
  obtain ⟨first, hstart, -⟩ := Relation.TransGen.head'_iff.mp hcycle
  rw [hchild last node hend, MemoCheck.Child, hleaf] at hstart
  cases hstart

/-- The shared directory counts as missing, in both trees and in every order. -/
theorem checkRoots_iff_nested :
    List.Forall₂ (fun root complete =>
        (complete = true ↔
          NothingMissing nestedJson nestedObjects (fun digest => digest = plainDigest 'b' 1) root) ∧
          complete = (treeIsCompleteBy nestedJson nestedObjects
            (fun digest => digest = plainDigest 'b' 1) (fun _ => none) root).1)
      [plainDigest 'a' 1, plainDigest 'b' 1, plainDigest 'a' 1]
      (checkRoots nestedJson nestedObjects (fun digest => digest = plainDigest 'b' 1)
        (fun _ => none) [plainDigest 'a' 1, plainDigest 'b' 1, plainDigest 'a' 1]) :=
  checkRoots_iff nestedJson nestedObjects _ nestedObjects_acyclic _

end MrBoxington.Store
