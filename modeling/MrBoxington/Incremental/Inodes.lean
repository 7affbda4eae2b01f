import MrBoxington.Lib.KeyedTotals
import MrBoxington.Lib.Runs
import MrBoxington.Lib.U64

/-!
# The ledger of measured files

The collector counts each file once, however many links lead to it. An owner's tree is measured,
which references its files, and released; a file whose last link was removed is forgotten. The
bytes of the ledger are those of the files that are referenced.
-/

namespace MrBoxington.Incremental

open Keyed (lookup modify total)

/-- What two links to one file have in common; a path where the platform tells no more. -/
inductive FileKey where
  | object (device inode : UInt64)
  | path (path : List String)
deriving DecidableEq

/-- What is found at a path, without following links. -/
inductive Entry where
  /-- No metadata, or neither a directory nor a file. -/
  | other (path : List String)
  | directory (path : List String) (entries : List Entry)
  | file (path : List String) (key : FileKey) (len : UInt64)

/-- A file's entry in the ledger. -/
structure Measured where
  key : FileKey
  len : UInt64
  references : ℕ
deriving DecidableEq

/-- The ledger; `added` and `subtracted` only record the keys whose length was added to the bytes
and subtracted from them. -/
structure Inodes where
  files : List Measured := []
  bytes : UInt64 := 0
  added : List FileKey := []
  subtracted : List FileKey := []
deriving DecidableEq

namespace Inodes

def orInsert (inodes : Inodes) (key : FileKey) (len : UInt64) : Inodes :=
  match lookup Measured.key inodes.files key with
  | some _ => inodes
  | none => { inodes with files := inodes.files ++ [⟨key, len, 0⟩] }

def setReferences (files : List Measured) (key : FileKey) (references : ℕ) : List Measured :=
  modify Measured.key key (fun file => { file with references }) files

def add (inodes : Inodes) (file : Measured) : Inodes :=
  { inodes with
    bytes := U64.saturatingAdd inodes.bytes file.len, added := file.key :: inodes.added }

def subtract (inodes : Inodes) (file : Measured) : Inodes :=
  { inodes with
    bytes := U64.saturatingSub inodes.bytes file.len, subtracted := file.key :: inodes.subtracted }

/-- One key of a measured tree; it panics on a key that has no entry. -/
def measureKey (inodes : Inodes) (key : FileKey) : Option Inodes :=
  match lookup Measured.key inodes.files key with
  | none => none
  | some file =>
    let inodes := if file.references = 0 then inodes.add file else inodes
    some { inodes with files := setReferences inodes.files key (file.references + 1) }

/-- One key of a released owner. -/
def releaseKey (inodes : Inodes) (key : FileKey) : Option Inodes :=
  match lookup Measured.key inodes.files key with
  | none => none
  | some file =>
    if file.references = 0 then some inodes
    else
      let files := setReferences inodes.files key (file.references - 1)
      let inodes := if file.references - 1 = 0 then inodes.subtract file else inodes
      some { inodes with files }

end Inodes

mutual

/-- The files below an entry, whose pending paths are taken from the last one on. -/
def Entry.collect (excluded : List (List String)) :
    Entry → Inodes × List FileKey → Inodes × List FileKey
  | .other _, found => found
  | .directory path entries, found =>
    if excluded.contains path then found else collectAll excluded entries found
  | .file path key len, found =>
    if excluded.contains path then found
    else (found.1.orInsert key len, found.2.insert key)

def collectAll (excluded : List (List String)) :
    List Entry → Inodes × List FileKey → Inodes × List FileKey
  | [], found => found
  | entry :: entries, found => entry.collect excluded (collectAll excluded entries found)

end

namespace Inodes

/-- Measures a tree for a new owner; a set of keys is listed in some order. -/
def measure (order : List FileKey → List FileKey) (inodes : Inodes) (root : Entry)
    (excluded : List (List String)) : Option (Inodes × List FileKey) :=
  let (inodes, files) := root.collect excluded (inodes, [])
  ((order files).foldlM measureKey inodes).map fun inodes => (inodes, order files)

def release (inodes : Inodes) (files : List FileKey) : Option Inodes :=
  files.foldlM releaseKey inodes

/-- The last link of a file was removed. -/
def forget (inodes : Inodes) (key : FileKey) : Inodes :=
  match lookup Measured.key inodes.files key with
  | none => inodes
  | some file =>
    if 0 < file.references then
      { inodes.subtract file with files := setReferences inodes.files key 0 }
    else inodes

/-- How often a key is referenced. -/
def references (inodes : Inodes) (key : FileKey) : ℕ :=
  ((lookup Measured.key inodes.files key).map Measured.references).getD 0

/-- What a file counts for. -/
def weight (file : Measured) : ℕ :=
  if 0 < file.references then file.len.toNat else 0

/-- The recorded lengths of the referenced keys. -/
def held (inodes : Inodes) : ℕ :=
  total weight inodes.files

def Recorded (inodes : Inodes) (key : FileKey) : Prop :=
  (lookup Measured.key inodes.files key).isSome

/-- The bytes are those of the referenced keys, which are recorded with their lengths, and a key's
length was added once more than it was subtracted while the key is referenced. -/
structure Consistent (length : FileKey → UInt64) (inodes : Inodes) : Prop where
  nodup : (inodes.files.map Measured.key).Nodup
  lengths : ∀ file ∈ inodes.files, file.len = length file.key
  exact : inodes.bytes.toNat = inodes.held
  balanced : ∀ key, inodes.added.count key =
    inodes.subtracted.count key + if 0 < inodes.references key then 1 else 0

section Files

variable {inodes : Inodes} {key : FileKey} {file : Measured} {len : UInt64} {n : ℕ}
  {length : FileKey → UInt64}

theorem references_of_lookup (hfile : lookup Measured.key inodes.files key = some file) :
    inodes.references key = file.references := by
  rw [references, hfile]
  rfl

/-- The references of one key are set. -/
structure Sets (inodes next : Inodes) (key : FileKey) (n : ℕ) : Prop where
  files : next.files = setReferences inodes.files key n

variable {next : Inodes}

private theorem Sets.lookup_eq (hsets : inodes.Sets next key n) (k : FileKey) :
    lookup Measured.key next.files k =
      if k = key then (lookup Measured.key inodes.files key).map ({ · with references := n })
      else lookup Measured.key inodes.files k := by
  rw [hsets.files, setReferences]
  refine Keyed.lookup_modify ?_ k
  exact fun _ hkey => hkey

/-- Setting one key's count changes the count of this key only. -/
theorem Sets.references (hsets : inodes.Sets next key n)
    (hfile : lookup Measured.key inodes.files key = some file) (k : FileKey) :
    next.references k = if k = key then n else inodes.references k := by
  unfold Inodes.references
  rw [hsets.lookup_eq, hfile]
  split <;> rfl

/-- Setting a count neither adds nor removes a recorded key. -/
theorem Sets.recorded (hsets : inodes.Sets next key n) (k : FileKey) :
    next.Recorded k ↔ inodes.Recorded k := by
  unfold Recorded
  rw [hsets.lookup_eq]
  split
  · rename_i heq
    rw [heq, Option.isSome_map]
  · rfl

theorem Sets.keys (hsets : inodes.Sets next key n) :
    next.files.map Measured.key = inodes.files.map Measured.key := by
  rw [hsets.files, setReferences]
  refine Keyed.map_key_modify ?_
  exact fun _ hkey => hkey

/-- The bytes held move by the weight of the one entry that is set. -/
theorem Sets.held (hsets : inodes.Sets next key n)
    (hnodup : (inodes.files.map Measured.key).Nodup)
    (hfile : lookup Measured.key inodes.files key = some file) :
    next.held + weight file = inodes.held + if 0 < n then file.len.toNat else 0 := by
  unfold Inodes.held
  rw [hsets.files]
  exact Keyed.total_modify hnodup hfile

/-- The references of one key change, and with them the bytes and the record of its length. -/
theorem Consistent.sets (hconsistent : inodes.Consistent length) (hsets : inodes.Sets next key n)
    (hfile : lookup Measured.key inodes.files key = some file)
    (hbytes : next.bytes.toNat + weight file =
      inodes.bytes.toNat + if 0 < n then file.len.toNat else 0)
    (hother : ∀ k ≠ key, next.added.count k = inodes.added.count k ∧
      next.subtracted.count k = inodes.subtracted.count k)
    (hkey : next.added.count key = next.subtracted.count key + if 0 < n then 1 else 0) :
    next.Consistent length where
  nodup := hsets.keys ▸ hconsistent.nodup
  lengths changed hmem := by
    rw [hsets.files, setReferences, Keyed.modify, List.mem_map] at hmem
    obtain ⟨earlier, hearlier, rfl⟩ := hmem
    split <;> exact hconsistent.lengths earlier hearlier
  exact := by
    have hheld := hsets.held hconsistent.nodup hfile
    have hexact := hconsistent.exact
    omega
  balanced k := by
    rw [hsets.references hfile]
    by_cases hk : k = key
    · rw [hk, if_pos rfl]
      exact hkey
    · rw [if_neg hk, (hother k hk).1, (hother k hk).2]
      exact hconsistent.balanced k

private theorem Consistent.count_of_referenced (hconsistent : inodes.Consistent length)
    (hfile : lookup Measured.key inodes.files key = some file) (hreferenced : 0 < file.references) :
    inodes.added.count key = inodes.subtracted.count key + 1 := by
  rw [hconsistent.balanced, references_of_lookup hfile, if_pos hreferenced]

private theorem Consistent.count_of_unreferenced (hconsistent : inodes.Consistent length)
    (hfile : lookup Measured.key inodes.files key = some file) (hzero : file.references = 0) :
    inodes.added.count key = inodes.subtracted.count key := by
  rw [hconsistent.balanced, references_of_lookup hfile, hzero, if_neg (Nat.lt_irrefl 0),
    Nat.add_zero]

/-- The first reference adds the length. -/
theorem Consistent.add (hconsistent : inodes.Consistent length) (hsets : inodes.Sets next key n)
    (hfile : lookup Measured.key inodes.files key = some file) (hzero : file.references = 0)
    (hn : 0 < n) (hfits : next.held ≤ 18446744073709551615)
    (hbytes : next.bytes = (inodes.add file).bytes) (hadded : next.added = (inodes.add file).added)
    (hsubtracted : next.subtracted = inodes.subtracted) : next.Consistent length := by
  have hheld := hsets.held hconsistent.nodup hfile
  have hexact := hconsistent.exact
  have hweight : weight file = 0 := if_neg (by omega)
  have hown : file.key = key := Keyed.key_of_lookup hfile
  refine hconsistent.sets hsets hfile ?_ (fun k hk => ?_) ?_
  · rw [if_pos hn] at hheld ⊢
    rw [hbytes, Inodes.add, U64.toNat_saturatingAdd]
    omega
  · rw [hadded, hsubtracted]
    exact ⟨List.count_cons_of_ne (hown ▸ Ne.symm hk), rfl⟩
  · rw [hadded, hsubtracted, Inodes.add, hown, List.count_cons_self,
      hconsistent.count_of_unreferenced hfile hzero, if_pos hn]

/-- The last reference subtracts the length. -/
theorem Consistent.subtract (hconsistent : inodes.Consistent length)
    (hsets : inodes.Sets next key 0)
    (hfile : lookup Measured.key inodes.files key = some file) (hreferenced : 0 < file.references)
    (hbytes : next.bytes = (inodes.subtract file).bytes) (hadded : next.added = inodes.added)
    (hsubtracted : next.subtracted = (inodes.subtract file).subtracted) :
    next.Consistent length := by
  have hheld := hsets.held hconsistent.nodup hfile
  have hexact := hconsistent.exact
  have hweight : weight file = file.len.toNat := if_pos hreferenced
  have hown : file.key = key := Keyed.key_of_lookup hfile
  refine hconsistent.sets hsets hfile ?_ (fun k hk => ?_) ?_
  · rw [if_neg (Nat.lt_irrefl 0)] at hheld ⊢
    rw [hbytes, Inodes.subtract, U64.toNat_saturatingSub]
    omega
  · rw [hadded, hsubtracted]
    exact ⟨rfl, List.count_cons_of_ne (hown ▸ Ne.symm hk)⟩
  · rw [hadded, hsubtracted, Inodes.subtract, hown, List.count_cons_self,
      hconsistent.count_of_referenced hfile hreferenced, if_neg (Nat.lt_irrefl 0), Nat.add_zero]

/-- Another reference changes nothing but the count. -/
theorem Consistent.keep (hconsistent : inodes.Consistent length) (hsets : inodes.Sets next key n)
    (hfile : lookup Measured.key inodes.files key = some file) (hreferenced : 0 < file.references)
    (hn : 0 < n) (hbytes : next.bytes = inodes.bytes) (hadded : next.added = inodes.added)
    (hsubtracted : next.subtracted = inodes.subtracted) : next.Consistent length := by
  have hweight : weight file = file.len.toNat := if_pos hreferenced
  refine hconsistent.sets hsets hfile ?_ (fun k _ => ?_) ?_
  · rw [hbytes, hweight, if_pos hn]
  · rw [hadded, hsubtracted]
    exact ⟨rfl, rfl⟩
  · rw [hadded, hsubtracted, hconsistent.count_of_referenced hfile hreferenced, if_pos hn]

/-! ## One key -/

/-- A recorded key is measured without a panic, and has one more reference. -/
theorem measureKey_spec (hfile : lookup Measured.key inodes.files key = some file) :
    ∃ next, inodes.measureKey key = some next ∧ inodes.Sets next key (file.references + 1) ∧
      (inodes.Consistent length → next.held ≤ 18446744073709551615 → next.Consistent length) := by
  by_cases hzero : file.references = 0
  · let next : Inodes := { inodes.add file with
      files := setReferences inodes.files key (file.references + 1) }
    have hsets : inodes.Sets next key (file.references + 1) := ⟨rfl⟩
    refine ⟨next, ?_, hsets, fun hconsistent hfits => ?_⟩
    · simp only [measureKey, hfile, if_pos hzero]
      rfl
    · exact hconsistent.add hsets hfile hzero (Nat.succ_pos _) hfits rfl rfl rfl
  · let next : Inodes := { inodes with
      files := setReferences inodes.files key (file.references + 1) }
    have hsets : inodes.Sets next key (file.references + 1) := ⟨rfl⟩
    refine ⟨next, ?_, hsets, fun hconsistent _ => ?_⟩
    · simp only [measureKey, hfile, if_neg hzero]
      rfl
    · exact hconsistent.keep hsets hfile (Nat.pos_of_ne_zero hzero) (Nat.succ_pos _) rfl rfl rfl

/-- A recorded key is released without a panic, and has one reference less. -/
theorem releaseKey_spec (hfile : lookup Measured.key inodes.files key = some file) :
    ∃ next, inodes.releaseKey key = some next ∧
      (∀ k, next.references k = inodes.references k - if k = key then 1 else 0) ∧
      (∀ k, next.Recorded k ↔ inodes.Recorded k) ∧
      (inodes.Consistent length → next.Consistent length) := by
  have hreferences := references_of_lookup hfile
  by_cases hzero : file.references = 0
  · refine ⟨inodes, ?_, fun k => ?_, fun k => Iff.rfl, id⟩
    · simp only [releaseKey, hfile, if_pos hzero]
    · split
      · rename_i hk
        rw [hk]
        omega
      · rfl
  · have hset : ∀ next, inodes.Sets next key (file.references - 1) → ∀ k,
        next.references k = inodes.references k - if k = key then 1 else 0 := by
      intro next hsets k
      rw [hsets.references hfile]
      split
      · rename_i hk
        rw [hk, hreferences]
      · rfl
    by_cases hlast : file.references - 1 = 0
    · let next : Inodes := { inodes.subtract file with
        files := setReferences inodes.files key (file.references - 1) }
      have hsets : inodes.Sets next key (file.references - 1) := ⟨rfl⟩
      refine ⟨next, ?_, hset next hsets, hsets.recorded, fun hconsistent => ?_⟩
      · simp only [releaseKey, hfile, if_neg hzero, if_pos hlast]
        rfl
      · exact hconsistent.subtract (hlast ▸ hsets) hfile (Nat.pos_of_ne_zero hzero) rfl rfl rfl
    · let next : Inodes := { inodes with
        files := setReferences inodes.files key (file.references - 1) }
      have hsets : inodes.Sets next key (file.references - 1) := ⟨rfl⟩
      refine ⟨next, ?_, hset next hsets, hsets.recorded, fun hconsistent => ?_⟩
      · simp only [releaseKey, hfile, if_neg hzero, if_neg hlast]
        rfl
      · exact hconsistent.keep hsets hfile (Nat.pos_of_ne_zero hzero) (Nat.pos_of_ne_zero hlast)
          rfl rfl rfl

/-- A forgotten key has no references. -/
theorem Consistent.forget (hconsistent : inodes.Consistent length) (key : FileKey) :
    (inodes.forget key).Consistent length ∧
      (∀ k, (inodes.forget key).references k = if k = key then 0 else inodes.references k) ∧
      ∀ k, (inodes.forget key).Recorded k ↔ inodes.Recorded k := by
  have hunchanged : inodes.references key = 0 → ∀ k,
      inodes.references k = if k = key then 0 else inodes.references k := by
    intro hnone k
    split
    · rename_i hk
      rw [hk, hnone]
    · rfl
  unfold Inodes.forget
  split
  · rename_i hnone
    refine ⟨hconsistent, hunchanged ?_, fun k => Iff.rfl⟩
    rw [Inodes.references, hnone]
    rfl
  · rename_i file hfile
    split
    · rename_i hreferenced
      have hsets : inodes.Sets { inodes.subtract file with
          files := setReferences inodes.files key 0 } key 0 := ⟨rfl⟩
      exact ⟨hconsistent.subtract hsets hfile hreferenced rfl rfl rfl, hsets.references hfile,
        hsets.recorded⟩
    · refine ⟨hconsistent, hunchanged ?_, fun k => Iff.rfl⟩
      rw [references_of_lookup hfile]
      omega

end Files

end Inodes

end MrBoxington.Incremental
