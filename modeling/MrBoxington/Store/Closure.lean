import Mathlib.Logic.Relation
import MrBoxington.Store.Layout

/-!
# What a result names

A result names its action, its metadata and the directory with its outputs. The
metadata names the captured output, and a directory names its files and the
directories in it. Restoring a result reads all of these objects.
-/

namespace MrBoxington.Store

open Protocol (Bytes Digest ActionResult Directory RustcMetadata CapturedOutput RecordJson)

/-- The files of a store. -/
abbrev Files := Path → Option Bytes

section Reading

variable (json : RecordJson) (files : Files)

/-- The contents of an object. -/
def readObject (digest : Digest) : Option Bytes := (objectPath digest).bind files

/-- A directory object, if it is there and can be read. -/
def readDirectory (digest : Digest) : Option Directory :=
  (readObject files digest).bind json.directory

/-- The metadata of a compiler adapter, if it is there and can be read. -/
def readRustcMetadata (digest : Digest) : Option RustcMetadata :=
  (readObject files digest).bind json.rustcMetadata

/-- The captured output that metadata names. -/
def readCapturedOutput (digest : Digest) : Option CapturedOutput :=
  (readObject files digest).bind json.capturedOutput

/-- The directories in a directory; none if it cannot be read. -/
def subdirectories (digest : Digest) : List Digest :=
  match readDirectory json files digest with
  | none => []
  | some directory => directory.directories.map fun node => node.digest

/-- The files in a directory; none if it cannot be read. -/
def fileDigests (digest : Digest) : List Digest :=
  match readDirectory json files digest with
  | none => []
  | some directory => directory.files.map fun node => node.digest

/-- A directory lies somewhere below another one. -/
def Below : Digest → Digest → Prop :=
  Relation.ReflTransGen fun parent child => child ∈ subdirectories json files parent

/-- The objects that a result names itself and through its output tree. -/
inductive Walked (result : ActionResult) : Digest → Prop
  | action : Walked result result.action
  | metadata {digest : Digest} (hmetadata : result.metadata = some digest) : Walked result digest
  | outputRoot {root : Digest} (hroot : result.outputRoot = some root) : Walked result root
  | directory {root parent child : Digest} (hroot : result.outputRoot = some root)
      (hbelow : Below json files root parent) (hchild : child ∈ subdirectories json files parent) :
      Walked result child
  | file {root parent file : Digest} (hroot : result.outputRoot = some root)
      (hbelow : Below json files root parent) (hfile : file ∈ fileDigests json files parent) :
      Walked result file

/-- The objects that a result names through its metadata. -/
inductive Captured (result : ActionResult) : Digest → Prop
  | stdout {metadata : Digest} {captured : CapturedOutput}
      (hmetadata : result.metadata = some metadata)
      (hread : readCapturedOutput json files metadata = some captured) :
      Captured result captured.stdout
  | stderr {metadata : Digest} {captured : CapturedOutput}
      (hmetadata : result.metadata = some metadata)
      (hread : readCapturedOutput json files metadata = some captured) :
      Captured result captured.stderr

/-- An object is there. -/
def Present (digest : Digest) : Prop := (readObject files digest).isSome = true

/-- Everything that restoring a result reads is there. -/
def Restorable (result : ActionResult) : Prop :=
  ∀ digest, Walked json files result digest ∨ Captured json files result digest →
    Present files digest

end Reading

variable {json : RecordJson} {files files' : Files} {result : ActionResult} {digest : Digest}

/-- An object that reads the same names the same objects. -/
theorem names_congr (hread : readObject files' digest = readObject files digest) :
    subdirectories json files' digest = subdirectories json files digest ∧
      fileDigests json files' digest = fileDigests json files digest := by
  simp only [subdirectories, fileDigests, readDirectory, hread, and_self]

/-- Everything that a result names is there when the objects that it names itself are, and
every directory of the output tree has what it names. -/
theorem walked_present_iff :
    (∀ digest, Walked json files result digest → Present files digest) ↔
      (∀ digest, some digest ∈ [some result.action, result.metadata, result.outputRoot] →
        Present files digest) ∧
      ∀ root, result.outputRoot = some root → ∀ directory, Below json files root directory →
        (∀ file ∈ fileDigests json files directory, Present files file) ∧
        ∀ child ∈ subdirectories json files directory, Present files child := by
  constructor
  · intro hwalked
    constructor
    · intro digest hdigest
      simp only [List.mem_cons, List.not_mem_nil, or_false, Option.some.injEq] at hdigest
      rcases hdigest with rfl | hmetadata | hroot
      · exact hwalked _ .action
      · exact hwalked _ (.metadata hmetadata.symm)
      · exact hwalked _ (.outputRoot hroot.symm)
    · intro root hroot directory hbelow
      exact ⟨fun file hfile => hwalked _ (.file hroot hbelow hfile),
        fun child hchild => hwalked _ (.directory hroot hbelow hchild)⟩
  · rintro ⟨hnamed, htree⟩ digest
      (_ | hmetadata | hroot | ⟨hroot, hbelow, hchild⟩ | ⟨hroot, hbelow, hfile⟩)
    · exact hnamed _ (by simp)
    · exact hnamed _ (by simp [hmetadata])
    · exact hnamed _ (by simp [hroot])
    · exact (htree _ hroot _ hbelow).2 _ hchild
    · exact (htree _ hroot _ hbelow).1 _ hfile

section Kept

variable (hkept : ∀ digest, Walked json files result digest →
  readObject files' digest = readObject files digest)
include hkept

private theorem names_of_below {root node : Digest} (hroot : result.outputRoot = some root)
    (hbelow : Below json files root node) :
    subdirectories json files' node = subdirectories json files node ∧
      fileDigests json files' node = fileDigests json files node := by
  apply names_congr
  rcases Relation.ReflTransGen.cases_tail hbelow with rfl | ⟨_, habove, hchild⟩
  · exact hkept _ (.outputRoot hroot)
  · exact hkept _ (.directory hroot habove hchild)

private theorem below_iff_of_kept {root node : Digest} (hroot : result.outputRoot = some root) :
    Below json files' root node ↔ Below json files root node := by
  constructor
  · intro hbelow
    induction hbelow with
    | refl => exact .refl
    | tail _ hchild ih => exact ih.tail ((names_of_below hkept hroot ih).1 ▸ hchild)
  · intro hbelow
    induction hbelow with
    | refl => exact .refl
    | tail habove hchild ih =>
      exact ih.tail ((names_of_below hkept hroot habove).1.symm ▸ hchild)

/-- Where the objects are kept, the walk enters the same ones. -/
theorem walked_iff_of_kept :
    Walked json files' result digest ↔ Walked json files result digest := by
  constructor
  · rintro (_ | hmetadata | hroot | ⟨hroot, hbelow, hchild⟩ | ⟨hroot, hbelow, hfile⟩)
    · exact .action
    · exact .metadata hmetadata
    · exact .outputRoot hroot
    · have hbelow := (below_iff_of_kept hkept hroot).mp hbelow
      exact .directory hroot hbelow ((names_of_below hkept hroot hbelow).1 ▸ hchild)
    · have hbelow := (below_iff_of_kept hkept hroot).mp hbelow
      exact .file hroot hbelow ((names_of_below hkept hroot hbelow).2 ▸ hfile)
  · rintro (_ | hmetadata | hroot | ⟨hroot, hbelow, hchild⟩ | ⟨hroot, hbelow, hfile⟩)
    · exact .action
    · exact .metadata hmetadata
    · exact .outputRoot hroot
    · exact .directory hroot ((below_iff_of_kept hkept hroot).mpr hbelow)
        ((names_of_below hkept hroot hbelow).1.symm ▸ hchild)
    · exact .file hroot ((below_iff_of_kept hkept hroot).mpr hbelow)
        ((names_of_below hkept hroot hbelow).2.symm ▸ hfile)

/-- Where the objects are kept, the same ones are captured. -/
theorem captured_iff_of_kept :
    Captured json files' result digest ↔ Captured json files result digest := by
  have hread {metadata : Digest} (hmetadata : result.metadata = some metadata) :
      readCapturedOutput json files' metadata = readCapturedOutput json files metadata := by
    rw [readCapturedOutput, readCapturedOutput, hkept _ (.metadata hmetadata)]
  constructor
  · rintro (⟨hmetadata, hcaptured⟩ | ⟨hmetadata, hcaptured⟩)
    · exact .stdout hmetadata (hread hmetadata ▸ hcaptured)
    · exact .stderr hmetadata (hread hmetadata ▸ hcaptured)
  · rintro (⟨hmetadata, hcaptured⟩ | ⟨hmetadata, hcaptured⟩)
    · exact .stdout hmetadata ((hread hmetadata).symm ▸ hcaptured)
    · exact .stderr hmetadata ((hread hmetadata).symm ▸ hcaptured)

end Kept

end MrBoxington.Store
