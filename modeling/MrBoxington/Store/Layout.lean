import Mathlib.Data.List.TakeWhile
import MrBoxington.Protocol.Objects

/-!
# Where a store keeps its files

An object lies at a path made of its digest, and so does the result of an action. The
digest can be read back from the path, so different digests have different paths.
-/

namespace MrBoxington.Store

open Protocol (Digest DigestAlgorithm)

/-- A path below the root of a store, component by component. -/
abbrev Path := List String

/-- The name of the file for a digest. -/
def fileName (digest : Digest) : String := digest.hash ++ "-" ++ digest.size.repr

/-- The first two digits of a hash. -/
def shard (hash : String) : String := String.ofList (hash.toList.take 2)

/-- Where an object lies. A digest that is not well-formed has no path. -/
def objectPath (digest : Digest) : Option Path :=
  if digest.validate then
    some ["cas", "v1", digest.algorithm, shard digest.hash, fileName digest]
  else none

/-- Where the result of an action lies. -/
def resultPath (action : Digest) : Option Path :=
  if action.validate ∧ action.algorithm = DigestAlgorithm.blake3.asStr then
    some ["action-results", "v1", action.algorithm, shard action.hash, fileName action ++ ".json"]
  else none

/-- What precedes and what follows the last separator. -/
def rsplitOnce (separator : Char) : List Char → Option (List Char × List Char)
  | [] => none
  | c :: rest =>
    match rsplitOnce separator rest with
    | some (front, back) => some (c :: front, back)
    | none => if c = separator then some ([], rest) else none

/-- A number in decimal digits, with or without a plus sign. -/
def parseSize (digits : List Char) : Option ℕ :=
  let digits := match digits with
    | '+' :: rest => rest
    | _ => digits
  if digits ≠ [] ∧ digits.all Char.isDigit then some (Nat.ofDigitChars 10 digits 0) else none

/-- The digest that the path of an object names. -/
def digestFromPath (path : Path) : Option Digest :=
  match path.reverse with
  | name :: _ :: algorithm :: _ =>
    match rsplitOnce '-' name.toList with
    | none => none
    | some (hash, size) =>
      match parseSize size with
      | none => none
      | some size =>
        let digest : Digest := ⟨algorithm, String.ofList hash, size⟩
        if digest.validate then some digest else none
  | _ => none

/-- The digest of the object that lies at a path. -/
def addressedDigest (path : Path) : Option Digest :=
  match digestFromPath path with
  | none => none
  | some digest => if objectPath digest = some path then some digest else none

variable {digest digest' : Digest} {path : Path}

private theorem rsplitOnce_eq_none {separator : Char} {chars : List Char}
    (hnot : separator ∉ chars) : rsplitOnce separator chars = none := by
  induction chars with
  | nil => rfl
  | cons c rest ih =>
    rw [List.mem_cons, not_or] at hnot
    rw [rsplitOnce, ih hnot.2]
    exact if_neg fun heq => hnot.1 heq.symm

private theorem rsplitOnce_append {separator : Char} (front : List Char) {back : List Char}
    (hnot : separator ∉ back) :
    rsplitOnce separator (front ++ separator :: back) = some (front, back) := by
  induction front with
  | nil => simp [rsplitOnce, rsplitOnce_eq_none hnot]
  | cons c front ih => rw [List.cons_append, rsplitOnce, ih]

private theorem isDigit_of_mem_repr {size : ℕ} {c : Char} (hmem : c ∈ size.repr.toList) :
    c.isDigit = true := by
  rw [Nat.repr_eq_ofList_toDigits, String.toList_ofList] at hmem
  exact Nat.isDigit_of_mem_toDigits (by decide) (by decide) hmem

private theorem parseSize_repr (size : ℕ) : parseSize size.repr.toList = some size := by
  have hdigits : size.repr.toList.all Char.isDigit = true :=
    List.all_eq_true.mpr fun c hc => isDigit_of_mem_repr hc
  have hplain : (match size.repr.toList with
      | '+' :: rest => rest
      | _ => size.repr.toList) = size.repr.toList := by
    split
    · rename_i rest heq
      exact absurd (isDigit_of_mem_repr (heq ▸ List.mem_cons_self)) (by decide)
    · rfl
  have hchars : size.repr.toList = Nat.toDigits 10 size := by
    rw [Nat.repr_eq_ofList_toDigits, String.toList_ofList]
  unfold parseSize
  rw [hplain]
  dsimp only
  rw [if_pos ⟨hchars ▸ Nat.toDigits_ne_nil, hdigits⟩, hchars,
    Nat.ofDigitChars_toDigits (by decide) (by decide)]

/-- The digest is read back from an object's path. -/
theorem digestFromPath_objectPath (hpath : objectPath digest = some path) :
    digestFromPath path = some digest := by
  unfold objectPath at hpath
  split at hpath
  · rename_i hvalid
    rw [Option.some.injEq] at hpath
    have hname : (fileName digest).toList =
        digest.hash.toList ++ '-' :: digest.size.repr.toList := by
      simp [fileName]
    have hsplit : rsplitOnce '-' (fileName digest).toList =
        some (digest.hash.toList, digest.size.repr.toList) := by
      rw [hname]
      apply rsplitOnce_append
      intro hmem
      exact absurd (isDigit_of_mem_repr hmem) (by decide)
    have hdigest : Digest.mk digest.algorithm (String.ofList digest.hash.toList) digest.size =
        digest := by
      rw [String.ofList_toList]
    rw [← hpath]
    simp only [digestFromPath, List.reverse_cons, List.reverse_nil, List.nil_append,
      List.cons_append, hsplit, parseSize_repr, hdigest, hvalid, if_true]
  · exact absurd hpath (by simp)

theorem addressedDigest_objectPath (hpath : objectPath digest = some path) :
    addressedDigest path = some digest := by
  rw [addressedDigest, digestFromPath_objectPath hpath]
  exact if_pos hpath

end MrBoxington.Store
