import MrBoxington.Incremental.Inodes

/-!
# Owners come and go

Any sequence of measures, releases and forgotten files. The owners which are measured and not
released are listed beside the ledger, each with the tree that was measured for it; a file that
was forgotten is gone, so that no later measure finds it.
-/

namespace MrBoxington.Incremental

open Keyed (lookup)

mutual

/-- The files of a tree that are not excluded, by their keys and lengths. -/
def Entry.files (excluded : List (List String)) : Entry → List (FileKey × UInt64)
  | .other _ => []
  | .directory path entries => if excluded.contains path then [] else filesOf excluded entries
  | .file path key len => if excluded.contains path then [] else [(key, len)]

@[inherit_doc Entry.files]
def filesOf (excluded : List (List String)) : List Entry → List (FileKey × UInt64)
  | [] => []
  | entry :: entries => entry.files excluded ++ filesOf excluded entries

end

namespace Inodes

variable {inodes : Inodes} {length : FileKey → UInt64}

/-! ## Lists of keys -/

private theorem measureKeys_spec (keys : List FileKey) (hrecorded : ∀ k ∈ keys, inodes.Recorded k)
    (hnodup : (inodes.files.map Measured.key).Nodup) :
    ∃ next, keys.foldlM measureKey inodes = some next ∧
      (∀ k, next.references k = inodes.references k + keys.count k) ∧
      (∀ k, next.Recorded k ↔ inodes.Recorded k) ∧ inodes.held ≤ next.held ∧
      (inodes.Consistent length → next.held ≤ 18446744073709551615 → next.Consistent length) := by
  induction keys generalizing inodes with
  | nil => exact ⟨inodes, rfl, fun _ => rfl, fun _ => Iff.rfl, Nat.le_refl _, fun h _ => h⟩
  | cons key keys ih =>
    obtain ⟨file, hfile⟩ := Option.isSome_iff_exists.mp (hrecorded key List.mem_cons_self)
    obtain ⟨mid, hmid, hsets, hkept⟩ := measureKey_spec hfile
    obtain ⟨next, hnext, hreferences, hsame, hheld, hrest⟩ := ih
      (fun k hk => (hsets.recorded k).mpr (hrecorded k (List.mem_cons_of_mem _ hk)))
      (hsets.keys ▸ hnodup)
    have hgrows : inodes.held ≤ mid.held := by
      have hsum := hsets.held hnodup hfile
      have hweight : weight file ≤ file.len.toNat := by
        unfold weight
        split <;> omega
      rw [if_pos (Nat.succ_pos _)] at hsum
      omega
    refine ⟨next, ?_, fun k => ?_, fun k => (hsame k).trans (hsets.recorded k),
      hgrows.trans hheld, fun hconsistent hfits => ?_⟩
    · rw [List.foldlM_cons, hmid]
      exact hnext
    · rw [hreferences, hsets.references hfile, List.count_cons]
      by_cases hk : k = key
      · subst hk
        rw [if_pos rfl, beq_self_eq_true, if_pos rfl, references_of_lookup hfile]
        omega
      · rw [if_neg hk, if_neg (by simpa using Ne.symm hk), Nat.add_zero]
    · exact hrest (hkept hconsistent (hheld.trans hfits)) hfits

private theorem release_spec (length : FileKey → UInt64) (files : List FileKey)
    (hrecorded : ∀ k ∈ files, inodes.Recorded k) :
    ∃ next, inodes.release files = some next ∧
      (∀ k, next.references k = inodes.references k - files.count k) ∧
      (∀ k, next.Recorded k ↔ inodes.Recorded k) ∧
      (inodes.Consistent length → next.Consistent length) := by
  induction files generalizing inodes with
  | nil => exact ⟨inodes, rfl, fun _ => rfl, fun _ => Iff.rfl, id⟩
  | cons key files ih =>
    obtain ⟨file, hfile⟩ := Option.isSome_iff_exists.mp (hrecorded key List.mem_cons_self)
    obtain ⟨mid, hmid, hreleased, hrecords, hkept⟩ := releaseKey_spec hfile
    obtain ⟨next, hnext, hreferences, hsame, hrest⟩ := ih
      (fun k hk => (hrecords k).mpr (hrecorded k (List.mem_cons_of_mem _ hk)))
    refine ⟨next, ?_, fun k => ?_, fun k => (hsame k).trans (hrecords k), hrest ∘ hkept⟩
    · rw [release, List.foldlM_cons, hmid]
      exact hnext
    · rw [hreferences, hreleased, List.count_cons]
      by_cases hk : k = key
      · subst hk
        rw [if_pos rfl, beq_self_eq_true, if_pos rfl]
        omega
      · rw [if_neg hk, if_neg (by simpa using Ne.symm hk)]
        omega

/-! ## The files of a tree -/

/-- A new entry has no references, so that it counts for nothing. -/
private theorem orInsert_spec (inodes : Inodes) (key : FileKey) {len : UInt64}
    (hlen : len = length key) :
    (inodes.Consistent length → (inodes.orInsert key len).Consistent length) ∧
      (∀ k, (inodes.orInsert key len).references k = inodes.references k) ∧
      ∀ k, (inodes.orInsert key len).Recorded k ↔ inodes.Recorded k ∨ k = key := by
  unfold orInsert
  split
  · rename_i file hfile
    refine ⟨id, fun _ => rfl, fun k => ⟨Or.inl, ?_⟩⟩
    rintro (hk | rfl)
    · exact hk
    · rw [Recorded, hfile]
      rfl
  · rename_i hnone
    have hlookup : ∀ k, lookup Measured.key (inodes.files ++ [⟨key, len, 0⟩]) k =
        (lookup Measured.key inodes.files k).or (if key = k then some ⟨key, len, 0⟩ else none) := by
      intro k
      rw [Keyed.lookup_append, Keyed.lookup_cons, Keyed.lookup_nil]
    have hreferences : ∀ k,
        ((lookup Measured.key (inodes.files ++ [⟨key, len, 0⟩]) k).map Measured.references).getD 0 =
          inodes.references k := by
      intro k
      rw [hlookup, Inodes.references]
      cases lookup Measured.key inodes.files k with
      | some file => rfl
      | none => split <;> rfl
    refine ⟨fun hconsistent => ⟨?_, ?_, ?_, fun k => ?_⟩, hreferences, fun k => ?_⟩
    · rw [List.map_append, List.nodup_append]
      refine ⟨hconsistent.nodup, by simp, fun k hk l hl => ?_⟩
      rintro rfl
      obtain rfl : k = key := by simpa using hl
      exact Keyed.lookup_eq_none_iff.mp hnone hk
    · intro file hfile
      rcases List.mem_append.mp hfile with hfile | hfile
      · exact hconsistent.lengths file hfile
      · obtain rfl := List.mem_singleton.mp hfile
        exact hlen
    · show inodes.bytes.toNat = Keyed.total weight (inodes.files ++ [⟨key, len, 0⟩])
      rw [Keyed.total_append]
      exact hconsistent.exact
    · rw [Inodes.references, hreferences]
      exact hconsistent.balanced k
    · rw [Recorded, hlookup, Recorded]
      cases lookup Measured.key inodes.files k with
      | some file => simp
      | none =>
        by_cases hk : key = k
        · simp [hk]
        · simp [hk, Ne.symm hk]

/-- What a walk has found: its files are recorded, and nothing else changed. -/
structure Collected (length : FileKey → UInt64) (inodes : Inodes)
    (found : Inodes × List FileKey) : Prop where
  consistent : found.1.Consistent length
  references : ∀ k, found.1.references k = inodes.references k
  recorded : ∀ k, inodes.Recorded k → found.1.Recorded k
  keys : ∀ k ∈ found.2, found.1.Recorded k
  nodup : found.2.Nodup

variable {found : Inodes × List FileKey}

private theorem Collected.file (hfound : inodes.Collected length found) (key : FileKey)
    {len : UInt64} (hlen : len = length key) :
    inodes.Collected length (found.1.orInsert key len, found.2.insert key) := by
  obtain ⟨hconsistent, hreferences, hrecorded⟩ := orInsert_spec found.1 key hlen
  refine ⟨hconsistent hfound.consistent, fun k => (hreferences k).trans (hfound.references k),
    fun k hk => (hrecorded k).mpr (Or.inl (hfound.recorded k hk)), fun k hk => ?_,
    hfound.nodup.insert⟩
  rcases List.mem_insert_iff.mp hk with rfl | hk
  · exact (hrecorded _).mpr (Or.inr rfl)
  · exact (hrecorded k).mpr (Or.inl (hfound.keys k hk))

mutual

private theorem Collected.collect (excluded : List (List String)) :
    ∀ (entry : Entry) {found : Inodes × List FileKey}, inodes.Collected length found →
      (∀ file ∈ entry.files excluded, file.2 = length file.1) →
      inodes.Collected length (entry.collect excluded found)
  | .other _, _, hfound, _ => hfound
  | .directory path entries, found, hfound, hlengths => by
    rw [Entry.files] at hlengths
    rw [Entry.collect]
    split
    · exact hfound
    · rename_i hpath
      rw [if_neg hpath] at hlengths
      exact hfound.collectAll excluded entries hlengths
  | .file path key len, found, hfound, hlengths => by
    rw [Entry.files] at hlengths
    rw [Entry.collect]
    split
    · exact hfound
    · rename_i hpath
      rw [if_neg hpath] at hlengths
      exact hfound.file key (hlengths _ List.mem_cons_self)

private theorem Collected.collectAll (excluded : List (List String)) :
    ∀ (entries : List Entry) {found : Inodes × List FileKey}, inodes.Collected length found →
      (∀ file ∈ filesOf excluded entries, file.2 = length file.1) →
      inodes.Collected length (collectAll excluded entries found)
  | [], _, hfound, _ => hfound
  | entry :: entries, found, hfound, hlengths => by
    rw [filesOf, List.forall_mem_append] at hlengths
    rw [Incremental.collectAll]
    exact (hfound.collectAll excluded entries hlengths.2).collect excluded entry hlengths.1

end

mutual

/-- A walk finds the keys of the files of the tree. -/
private theorem mem_collect (excluded : List (List String)) (k : FileKey) :
    ∀ (entry : Entry) (found : Inodes × List FileKey),
      k ∈ (entry.collect excluded found).2 ↔
        k ∈ (entry.files excluded).map Prod.fst ∨ k ∈ found.2
  | .other _, found => by simp [Entry.collect, Entry.files]
  | .directory path entries, found => by
    rw [Entry.collect, Entry.files]
    split
    · simp
    · exact mem_collectAll excluded k entries found
  | .file path key len, found => by
    rw [Entry.collect, Entry.files]
    split
    · simp
    · simp [List.mem_insert_iff]

private theorem mem_collectAll (excluded : List (List String)) (k : FileKey) :
    ∀ (entries : List Entry) (found : Inodes × List FileKey),
      k ∈ (collectAll excluded entries found).2 ↔
        k ∈ (filesOf excluded entries).map Prod.fst ∨ k ∈ found.2
  | [], found => by simp [collectAll, filesOf]
  | entry :: entries, found => by
    rw [collectAll, filesOf, mem_collect excluded k entry, mem_collectAll excluded k entries,
      List.map_append, List.mem_append, or_assoc]

end

/-- A measure never panics; it references each file of the tree once. -/
private theorem Consistent.measure (hconsistent : inodes.Consistent length)
    {order : List FileKey → List FileKey} (horder : ∀ files, (order files).Perm files)
    (root : Entry) (excluded : List (List String))
    (hlengths : ∀ file ∈ root.files excluded, file.2 = length file.1) :
    ∃ next keys, inodes.measure order root excluded = some (next, keys) ∧ keys.Nodup ∧
      (∀ k, k ∈ keys ↔ k ∈ (root.files excluded).map Prod.fst) ∧
      (∀ k, next.references k = inodes.references k + keys.count k) ∧
      (∀ k, inodes.Recorded k ∨ k ∈ keys → next.Recorded k) ∧
      (next.held ≤ 18446744073709551615 → next.Consistent length) := by
  have hempty : inodes.Collected length (inodes, []) :=
    ⟨hconsistent, fun _ => rfl, fun _ => id, by simp, List.nodup_nil⟩
  have hfound := hempty.collect excluded root hlengths
  have hkeys := fun k => mem_collect excluded k root (inodes, [])
  generalize hwalk : root.collect excluded (inodes, []) = found at hfound hkeys
  obtain ⟨collected, files⟩ := found
  have hmem : ∀ k, k ∈ order files ↔ k ∈ files := fun k => (horder files).mem_iff
  obtain ⟨next, hnext, hreferences, hrecorded, -, hkept⟩ := measureKeys_spec (order files)
    (fun k hk => hfound.keys k ((hmem k).mp hk)) hfound.consistent.nodup
  refine ⟨next, order files, ?_, (horder files).nodup_iff.mpr hfound.nodup,
    fun k => (hmem k).trans ((hkeys k).trans (by simp)), fun k => ?_,
    fun k hk => (hrecorded k).mpr ?_, hkept hfound.consistent⟩
  · simp only [Inodes.measure, hwalk, hnext, Option.map_some]
  · rw [hreferences, hfound.references]
  · rcases hk with hk | hk
    · exact hfound.recorded k hk
    · exact hfound.keys k ((hmem k).mp hk)

end Inodes

/-! ## Runs -/

/-- What was measured for an owner: a tree, and the keys that the measure returned. -/
structure Owner where
  root : Entry
  excluded : List (List String)
  files : List FileKey

/-- A file of the owner's tree has the key. -/
def Owner.holds (owner : Owner) (key : FileKey) : Bool :=
  ((owner.root.files owner.excluded).map Prod.fst).contains key

/-- The ledger, the owners that are measured and not released, and the files that are gone. -/
structure Sweep where
  inodes : Inodes
  owners : List Owner
  forgotten : List FileKey

def Sweep.initial : Sweep := ⟨{}, [], []⟩

/-- One operation; every file keeps its length. -/
inductive SweepStep (length : FileKey → UInt64) : Sweep → Sweep → Prop
  /-- A tree is measured that has no file which is gone, and whose bytes fit into a word. -/
  | measure {sweep : Sweep} {order : List FileKey → List FileKey}
      (horder : ∀ files, (order files).Perm files) (root : Entry) (excluded : List (List String))
      (hlengths : ∀ file ∈ root.files excluded, file.2 = length file.1)
      {inodes : Inodes} {files : List FileKey}
      (hmeasure : sweep.inodes.measure order root excluded = some (inodes, files))
      (hthere : ∀ file ∈ root.files excluded, file.1 ∉ sweep.forgotten)
      (hfits : inodes.held ≤ 18446744073709551615) :
      SweepStep length sweep
        { sweep with inodes, owners := ⟨root, excluded, files⟩ :: sweep.owners }
  | release {sweep : Sweep} {i : ℕ} {owner : Owner} {inodes : Inodes}
      (howner : sweep.owners[i]? = some owner)
      (hrelease : sweep.inodes.release owner.files = some inodes) :
      SweepStep length sweep { sweep with inodes, owners := sweep.owners.eraseIdx i }
  | forget (sweep : Sweep) (key : FileKey) :
      SweepStep length sweep { sweep with
        inodes := sweep.inodes.forget key, forgotten := key :: sweep.forgotten }

/-- The owners which are measured and not released and have a file in their tree. -/
def ownersOf (owners : List Owner) (key : FileKey) : ℕ :=
  owners.countP (·.holds key)

structure Sweep.Sound (length : FileKey → UInt64) (sweep : Sweep) : Prop where
  consistent : sweep.inodes.Consistent length
  counted : ∀ key, sweep.inodes.references key =
    if sweep.forgotten.contains key then 0 else ownersOf sweep.owners key
  listed : ∀ owner ∈ sweep.owners, owner.files.Nodup ∧
    ∀ key, key ∈ owner.files ↔ owner.holds key = true
  recorded : ∀ owner ∈ sweep.owners, ∀ key ∈ owner.files, sweep.inodes.Recorded key

variable {length : FileKey → UInt64}

private theorem Sweep.initial_sound : Sweep.initial.Sound length where
  consistent := ⟨List.nodup_nil, fun _ hfile => absurd hfile List.not_mem_nil, rfl, fun _ => rfl⟩
  counted key := rfl
  listed := by simp [Sweep.initial]
  recorded := by simp [Sweep.initial]

private theorem count_eq_holds {owner : Owner} (hnodup : owner.files.Nodup)
    (hholds : ∀ key, key ∈ owner.files ↔ owner.holds key = true) (key : FileKey) :
    owner.files.count key = if owner.holds key then 1 else 0 := by
  rw [hnodup.count]
  simp only [hholds]

private theorem ownersOf_cons (owner : Owner) (owners : List Owner) (key : FileKey) :
    ownersOf (owner :: owners) key = ownersOf owners key + if owner.holds key then 1 else 0 :=
  List.countP_cons

private theorem ownersOf_eraseIdx {owners : List Owner} {i : ℕ} {owner : Owner}
    (howner : owners[i]? = some owner) (key : FileKey) :
    ownersOf (owners.eraseIdx i) key + (if owner.holds key then 1 else 0) =
      ownersOf owners key := by
  induction owners generalizing i with
  | nil => cases howner
  | cons first owners ih =>
    cases i with
    | zero =>
      obtain rfl : first = owner := Option.some.inj howner
      rw [List.eraseIdx_cons_zero, ownersOf_cons]
    | succ i =>
      have hrest := ih (show owners[i]? = some owner from howner)
      rw [List.eraseIdx_cons_succ, ownersOf_cons, ownersOf_cons, ← hrest]
      omega

private theorem Sweep.Sound.step {sweep next : Sweep} (hsound : sweep.Sound length)
    (hstep : SweepStep length sweep next) : next.Sound length := by
  cases hstep with
  | @measure order horder root excluded hlengths inodes files hmeasure hthere hfits =>
    obtain ⟨_, _, hsome, hnodup, hkeys, hreferences, hrecorded, hkept⟩ :=
      hsound.consistent.measure horder root excluded hlengths
    obtain ⟨rfl, rfl⟩ := Prod.mk.inj (Option.some.inj (hmeasure.symm.trans hsome))
    have hholds : ∀ key, key ∈ files ↔ Owner.holds ⟨root, excluded, files⟩ key = true :=
      fun key => (hkeys key).trans List.contains_iff_mem.symm
    refine ⟨hkept hfits, fun key => ?_, ?_, ?_⟩
    · dsimp only
      have hcount := @count_eq_holds ⟨root, excluded, files⟩ hnodup hholds key
      rw [hreferences, hsound.counted, hcount, ownersOf_cons]
      split
      · rename_i hgone
        have hnot : ¬ Owner.holds ⟨root, excluded, files⟩ key = true := by
          rw [← hholds, hkeys, List.mem_map]
          rintro ⟨file, hfile, rfl⟩
          exact hthere file hfile (by simpa using hgone)
        rw [if_neg hnot]
      · rfl
    · exact List.forall_mem_cons.mpr ⟨⟨hnodup, hholds⟩, hsound.listed⟩
    · intro owner howner key hkey
      rcases List.mem_cons.mp howner with rfl | howner
      · exact hrecorded key (Or.inr hkey)
      · exact hrecorded key (Or.inl (hsound.recorded owner howner key hkey))
  | @release i owner inodes howner hrelease =>
    have hmem := List.mem_of_getElem? howner
    obtain ⟨hnodup, hholds⟩ := hsound.listed owner hmem
    obtain ⟨_, hsome, hreferences, hrecorded, hkept⟩ :=
      Inodes.release_spec length owner.files (hsound.recorded owner hmem)
    obtain rfl := Option.some.inj (hrelease.symm.trans hsome)
    have hsub : ∀ other ∈ sweep.owners.eraseIdx i, other ∈ sweep.owners :=
      fun other h => (List.eraseIdx_sublist _ _).mem h
    refine ⟨hkept hsound.consistent, fun key => ?_,
      fun other h => hsound.listed other (hsub other h),
      fun other h key hkey => (hrecorded key).mpr (hsound.recorded other (hsub other h) key hkey)⟩
    dsimp only
    rw [hreferences, hsound.counted, count_eq_holds hnodup hholds]
    split
    · rw [Nat.zero_sub]
    · rw [← ownersOf_eraseIdx howner, Nat.add_sub_cancel]
  | forget key =>
    obtain ⟨hconsistent, hreferences, hrecorded⟩ := hsound.consistent.forget key
    refine ⟨hconsistent, fun k => ?_, hsound.listed,
      fun owner howner k hk => (hrecorded k).mpr (hsound.recorded owner howner k hk)⟩
    dsimp only
    rw [hreferences, hsound.counted, List.contains_cons]
    by_cases hk : k = key
    · simp [hk]
    · simp [hk]

/-- After any sequence of measures, releases and forgotten files the bytes are the lengths of the
referenced files. A file is referenced once for every owner in whose tree it was measured, unless
it is gone, and what a measure returned are the files of the tree. No length was subtracted more
often than added, and neither a measure nor the release of an owner panics. -/
theorem inodes_ledger_exact (length : FileKey → UInt64) (sweep : Sweep)
    (hreach : Runs.Reachable (· = Sweep.initial) (SweepStep length) sweep) :
    sweep.inodes.bytes.toNat = sweep.inodes.held ∧
      (∀ file ∈ sweep.inodes.files, file.len = length file.key) ∧
      (∀ key, sweep.inodes.references key =
        if sweep.forgotten.contains key then 0 else ownersOf sweep.owners key) ∧
      (∀ owner ∈ sweep.owners, owner.files.Nodup ∧
        ∀ key, key ∈ owner.files ↔ owner.holds key = true) ∧
      (∀ key, sweep.inodes.subtracted.count key ≤ sweep.inodes.added.count key) ∧
      (∀ owner ∈ sweep.owners, (sweep.inodes.release owner.files).isSome) ∧
      ∀ order : List FileKey → List FileKey, (∀ files, (order files).Perm files) →
        ∀ root excluded, (∀ file ∈ root.files excluded, file.2 = length file.1) →
          (sweep.inodes.measure order root excluded).isSome := by
  have hsound : sweep.Sound length :=
    hreach.invariant (by rintro _ rfl; exact Sweep.initial_sound) fun _ _ h hstep => h.step hstep
  refine ⟨hsound.consistent.exact, hsound.consistent.lengths, hsound.counted, hsound.listed,
    fun key => ?_, fun owner howner => ?_, fun order horder root excluded hlengths => ?_⟩
  · rw [hsound.consistent.balanced]
    exact Nat.le_add_right _ _
  · obtain ⟨next, hnext, -⟩ :=
      Inodes.release_spec length owner.files (hsound.recorded owner howner)
    rw [hnext]
    rfl
  · obtain ⟨next, keys, hnext, -⟩ := hsound.consistent.measure horder root excluded hlengths
    rw [hnext]
    rfl

/-- A unit with two links to one file, and another file. -/
private def unitA : Entry := .directory ["a"] [.file ["a", "x"] (.object 1 7) 10,
  .file ["a", "y"] (.object 1 7) 10, .file ["a", "z"] (.object 1 8) 5]

/-- A unit that shares the first file. -/
private def unitB : Entry := .file ["b"] (.object 1 7) 10

private def sharedLength (key : FileKey) : UInt64 := if key = .object 1 7 then 10 else 5

/-- Both units are measured, the shared file goes, and the second unit is released. -/
private theorem reachable_shared :
    Runs.Reachable (· = Sweep.initial) (SweepStep sharedLength)
      ⟨⟨[⟨.object 1 8, 5, 1⟩, ⟨.object 1 7, 10, 0⟩], 5, [.object 1 8, .object 1 7],
        [.object 1 7]⟩, [⟨unitA, [], [.object 1 7, .object 1 8]⟩], [.object 1 7]⟩ := by
  have hinitial : Runs.Reachable (· = Sweep.initial) (SweepStep sharedLength) Sweep.initial :=
    .start rfl
  have hfirst : Runs.Reachable (· = Sweep.initial) (SweepStep sharedLength)
      ⟨⟨[⟨.object 1 8, 5, 1⟩, ⟨.object 1 7, 10, 1⟩], 15, [.object 1 8, .object 1 7], []⟩,
        [⟨unitA, [], [.object 1 7, .object 1 8]⟩], []⟩ :=
    hinitial.next (.measure (fun _ => .refl _) unitA [] (by decide +kernel) (by decide +kernel)
      (by decide +kernel) (by decide))
  have hsecond : Runs.Reachable (· = Sweep.initial) (SweepStep sharedLength)
      ⟨⟨[⟨.object 1 8, 5, 1⟩, ⟨.object 1 7, 10, 2⟩], 15, [.object 1 8, .object 1 7], []⟩,
        [⟨unitB, [], [.object 1 7]⟩, ⟨unitA, [], [.object 1 7, .object 1 8]⟩], []⟩ :=
    hfirst.next (.measure (fun _ => .refl _) unitB [] (by decide +kernel) (by decide +kernel)
      (by decide +kernel) (by decide))
  exact (hsecond.next (.forget _ (.object 1 7))).next (.release (i := 0) rfl (by decide +kernel))

theorem inodes_ledger_exact_shared :
    (5 : UInt64).toNat = Inodes.held ⟨[⟨.object 1 8, 5, 1⟩, ⟨.object 1 7, 10, 0⟩], 5,
        [.object 1 8, .object 1 7], [.object 1 7]⟩ ∧
      (1 : ℕ) = ownersOf [⟨unitA, [], [.object 1 7, .object 1 8]⟩] (.object 1 8) := by
  obtain ⟨hbytes, -, hreferences, -⟩ := inodes_ledger_exact sharedLength _ reachable_shared
  exact ⟨hbytes, hreferences (.object 1 8)⟩

end MrBoxington.Incremental
