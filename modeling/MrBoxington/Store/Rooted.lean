import MrBoxington.Store.Collected

/-!
# What rooting visits

Rooting walks the output tree of a result and passes over directories that it has seen. Every
directory object is visited once and appends its directories to the list of the walk, so the fuel
of the walk is enough.
-/

namespace MrBoxington.Store

open Protocol (Digest RecordJson)

variable {json : RecordJson} {contents : Contents} {root : Digest} {rooted : Finset Path}
  {visited : Finset Digest}

/-- The directories that are objects, with the number of directories in each, are no more
than the fuel of a walk counts. -/
private theorem sum_subdirectories_le (json : RecordJson) (contents : Contents)
    (files : List StoredFile) (hfiles : ∀ file ∈ files, file ∈ contents.objects.files) :
    ∑ node ∈ (files.filterMap fun file => addressedDigest file.path).toFinset,
        (subdirectories json contents.objects.read node).length ≤
      (files.map fun file =>
        match json.directory file.bytes with
        | some directory => directory.directories.length
        | none => 0).sum := by
  induction files with
  | nil => simp
  | cons file rest ih =>
    have hrest := ih fun other hother => hfiles other (List.mem_cons_of_mem _ hother)
    rw [List.map_cons, List.sum_cons, List.filterMap_cons]
    cases haddressed : addressedDigest file.path with
    | none => exact Nat.le_trans hrest (Nat.le_add_left _ _)
    | some node =>
      have hone : (subdirectories json contents.objects.read node).length =
          match json.directory file.bytes with
          | some directory => directory.directories.length
          | none => 0 := by
        have hpath : objectPath node = some file.path := by
          unfold addressedDigest at haddressed
          split at haddressed
          · exact absurd haddressed (by simp)
          · split at haddressed
            · rename_i hpath
              rwa [Option.some.inj haddressed] at hpath
            · exact absurd haddressed (by simp)
        have hread : readObject contents.objects.read node = some file.bytes := by
          rw [readObject, hpath]
          exact FileTree.read_of_mem (hfiles file List.mem_cons_self)
        unfold subdirectories readDirectory
        rw [hread, Option.bind_some]
        cases json.directory file.bytes with
        | none => rfl
        | some directory => simp
      rw [List.toFinset_cons]
      by_cases hmem : node ∈ (rest.filterMap fun file => addressedDigest file.path).toFinset
      · rw [Finset.insert_eq_of_mem hmem]
        exact Nat.le_trans hrest (Nat.le_add_left _ _)
      · rw [Finset.sum_insert hmem, hone]
        exact Nat.add_le_add_left hrest _

private theorem mem_addressed {node : Digest}
    (hchildren : subdirectories json contents.objects.read node ≠ []) :
    node ∈ (contents.objects.files.filterMap fun file => addressedDigest file.path).toFinset := by
  cases hpath : objectPath node with
  | none => simp [subdirectories, readDirectory, readObject, hpath] at hchildren
  | some path =>
    cases hread : contents.objects.read path with
    | none => simp [subdirectories, readDirectory, readObject, hpath, hread] at hchildren
    | some bytes =>
      obtain ⟨file, hfile, rfl, -⟩ := FileTree.exists_of_read hread
      rw [List.mem_toFinset, List.mem_filterMap]
      exact ⟨file, hfile, addressedDigest_objectPath hpath⟩

/-- The fuel counts what a walk can take from its list. -/
private theorem ahead_le_treeFuel (visited : Finset Digest) (root : Digest) :
    Walk.ahead (contents.objects.files.filterMap fun file => addressedDigest file.path).toFinset
      (subdirectories json contents.objects.read) visited [root] ≤ treeFuel json contents := by
  unfold Walk.ahead treeFuel
  have hsubset : ∑ node ∈ (contents.objects.files.filterMap fun file =>
        addressedDigest file.path).toFinset \ visited,
        (subdirectories json contents.objects.read node).length ≤
      ∑ node ∈ (contents.objects.files.filterMap fun file =>
        addressedDigest file.path).toFinset,
        (subdirectories json contents.objects.read node).length :=
    Finset.sum_le_sum_of_subset Finset.sdiff_subset
  have hall := sum_subdirectories_le json contents contents.objects.files fun _ h => h
  rw [List.length_singleton]
  exact Nat.add_le_add_left (Nat.le_trans hsubset hall) 1

/-- Rooting a tree visits every directory below its root, if with the directories seen before
everything below them was seen. -/
theorem rootTree_visits {node : Digest}
    (hclosed : ∀ node ∈ visited, ∀ child ∈ subdirectories json contents.objects.read node,
      child ∈ visited)
    (hbelow : Below json contents.objects.read root node) :
    node ∈ (rootTree json contents visited rooted root).1 := by
  unfold rootTree
  cases hwalk : Walk.walk (rootDirectory json contents) (treeFuel json contents) visited rooted
      [root] with
  | error e => exact nomatch e
  | ok outcome =>
    refine Walk.walk_reaches ?_ (fun _ => mem_addressed) (ahead_le_treeFuel visited root) hclosed
      hwalk (.inl List.mem_cons_self) hbelow
    intro state node state' below hvisited
    exact (Prod.mk.inj (Except.ok.inj hvisited)).2.symm

end MrBoxington.Store
