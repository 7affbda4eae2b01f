import MrBoxington.Target.UnitRemoval

/-!
# Fingerprints and outputs through an interrupted removal

A run moves the doomed paths out of the profile in order. What it has done at any point is
therefore given by how many of them it has moved, and the order of the paths decides which
fingerprints and outputs can be seen at that point.
-/

namespace MrBoxington.Target.Units

open PathMoves

variable {tree point cleared before after moved : Tree} {entry : List String × Node}
  {path directory profile : List String} {clock cutoff : ℤ} {name removal : String}
  {doomed : List (List String)} {faults : Faults} {index : ℕ}

section Reading

private theorem isDir_iff :
    isDir tree path = true ↔ ∃ entry ∈ tree, entry.1 = path ∧ entry.2.directory = true := by
  simp only [isDir, List.any_eq_true, mem_entriesAt, and_assoc]

private theorem present_iff : present tree path = true ↔ ∃ entry ∈ tree, entry.1 = path := by
  simp [present, entriesAt, List.filter_eq_nil_iff]

private theorem mem_subdirectories :
    path ∈ subdirectories tree directory ↔ listable tree directory = true ∧
      isDir tree path = true ∧ ∃ name, path = directory ++ [name] := by
  cases hlistable : listable tree directory with
  | false => simp [subdirectories, listing, hlistable]
  | true =>
    simp only [subdirectories, listing, hlistable, if_true, List.mem_map, List.mem_filter,
      mem_children, isDir_iff, true_and]
    constructor
    · rintro ⟨entry, ⟨⟨hmem, hname⟩, hdirectory⟩, rfl⟩
      exact ⟨⟨entry, hmem, rfl, hdirectory⟩, hname⟩
    · rintro ⟨⟨entry, hmem, rfl, hdirectory⟩, hname⟩
      exact ⟨entry, ⟨⟨hmem, hname⟩, hdirectory⟩, rfl⟩

private theorem listing_sublist : (listing tree directory).Sublist tree := by
  unfold listing
  split
  · exact List.filter_sublist
  · exact List.nil_sublist _

private theorem subdirectories_nodup (hnodup : (tree.map Prod.fst).Nodup) :
    (subdirectories tree directory).Nodup :=
  hnodup.sublist ((List.filter_sublist.trans listing_sublist).map Prod.fst)

private theorem le_later_left (a b : ℤ) : a ≤ later a b := by
  unfold later
  split <;> omega

private theorem le_later_right (a b : ℤ) : b ≤ later a b := by
  unfold later
  split <;> omega

/-- The latest time is at or after each of them. -/
theorem le_latest {times : List ℤ} {time : ℤ} (hmem : time ∈ times) :
    ∃ last, latest times = some last ∧ time ≤ last := by
  induction times with
  | nil => cases hmem
  | cons head times ih =>
    rcases List.mem_cons.mp hmem with rfl | hmem
    · cases hlatest : latest times with
      | none => exact ⟨time, by simp [latest, hlatest], Int.le_refl _⟩
      | some last => exact ⟨later time last, by simp [latest, hlatest], le_later_left _ _⟩
    · obtain ⟨last, hlatest, hle⟩ := ih hmem
      exact ⟨later head last, by simp [latest, hlatest], Int.le_trans hle (le_later_right _ _)⟩

/-- The latest time is one of them. -/
theorem latest_mem {times : List ℤ} {last : ℤ} (hlatest : latest times = some last) :
    last ∈ times := by
  induction times generalizing last with
  | nil => cases hlatest
  | cons head times ih =>
    obtain rfl := Option.some.inj hlatest
    cases hrest : latest times with
    | none => exact List.mem_cons_self
    | some other =>
      rw [Option.elim_some, later]
      split
      · exact List.mem_cons_of_mem _ (ih hrest)
      · exact List.mem_cons_self

end Reading

section Clearing

private theorem inRemoval_append (hdirectory : directory ≠ []) :
    inRemoval (directory ++ path) = inRemoval directory := by
  cases directory with
  | nil => exact absurd rfl hdirectory
  | cons => rfl

private theorem inRemoval_cons (top : String) : inRemoval (top :: path) = isRemoval top := rfl

variable (hcleared : Pruned inRemoval tree cleared)
include hcleared

private theorem entriesAt_cleared (hpath : inRemoval path = false) :
    entriesAt cleared path = entriesAt tree path := by
  refine hcleared.filter_eq fun entry hentry => ?_
  obtain rfl := of_decide_eq_true hentry
  exact hpath

private theorem children_cleared (hne : directory ≠ []) (hdirectory : inRemoval directory = false) :
    children cleared directory = children tree directory := by
  refine hcleared.filter_eq fun entry hentry => ?_
  obtain ⟨hentry, hparent⟩ := of_decide_eq_true hentry
  rw [← List.dropLast_append_getLast hentry, hparent, inRemoval_append hne, hdirectory]

private theorem isDir_cleared (hpath : inRemoval path = false) :
    isDir cleared path = isDir tree path := by
  rw [isDir, entriesAt_cleared hcleared hpath, isDir]

private theorem listable_cleared (hdirectory : inRemoval directory = false) :
    listable cleared directory = listable tree directory := by
  rw [listable, entriesAt_cleared hcleared hdirectory, listable]

private theorem listing_cleared (hne : directory ≠ []) (hdirectory : inRemoval directory = false) :
    listing cleared directory = listing tree directory := by
  rw [listing, listable_cleared hcleared hdirectory, children_cleared hcleared hne hdirectory,
    listing]

private theorem subdirectories_cleared (hne : directory ≠ [])
    (hdirectory : inRemoval directory = false) :
    subdirectories cleared directory = subdirectories tree directory := by
  rw [subdirectories, listing_cleared hcleared hne hdirectory, subdirectories]

private theorem lastUse_cleared (hne : directory ≠ []) (hdirectory : inRemoval directory = false) :
    lastUse clock cleared directory = lastUse clock tree directory := by
  rw [lastUse, isDir_cleared hcleared hdirectory, listable_cleared hcleared hdirectory,
    children_cleared hcleared hne hdirectory, modified, entriesAt_cleared hcleared hdirectory,
    lastUse, modified]

/-- What is asked of the directories in a directory is answered alike, if what is asked of
each one is. -/
theorem isOldUnit_cleared (hne : directory ≠ []) (hdirectory : inRemoval directory = false) :
    isOldUnit cleared directory = isOldUnit tree directory := by
  have hchild (child : List String) (hmem : child ∈ subdirectories tree directory) :
      isDir cleared (child ++ ["fingerprint"]) = isDir tree (child ++ ["fingerprint"]) := by
    obtain ⟨-, -, name, rfl⟩ := mem_subdirectories.mp hmem
    refine isDir_cleared hcleared ?_
    rw [List.append_assoc, inRemoval_append hne, hdirectory]
  have hany : ((subdirectories tree directory).any fun child =>
        isDir cleared (child ++ ["fingerprint"])) =
      (subdirectories tree directory).any fun child => isDir tree (child ++ ["fingerprint"]) := by
    rw [Bool.eq_iff_iff, List.any_eq_true, List.any_eq_true]
    exact exists_congr fun child => and_congr_right fun hmem => by rw [hchild child hmem]
  rw [isOldUnit, subdirectories_cleared hcleared hne hdirectory, hany, isOldUnit]

private theorem oldUnits_cleared : oldUnits cleared = oldUnits tree := by
  rw [oldUnits, subdirectories_cleared hcleared (by simp) (by decide), oldUnits]
  refine List.filter_congr fun unit hmem => ?_
  obtain ⟨-, -, name, rfl⟩ := mem_subdirectories.mp hmem
  exact isOldUnit_cleared hcleared (by simp) (by rw [inRemoval_append (by simp)]; decide)

private theorem oldLastUse_cleared : oldLastUse clock cleared = oldLastUse clock tree := by
  have hlast : (subdirectories tree [".fingerprint"]).map (lastUse clock cleared) =
      (subdirectories tree [".fingerprint"]).map (lastUse clock tree) := by
    refine List.map_congr_left fun unit hmem => ?_
    obtain ⟨-, -, name, rfl⟩ := mem_subdirectories.mp hmem
    exact lastUse_cleared hcleared (by simp) (by rw [inRemoval_append (by simp)]; decide)
  rw [oldLastUse, subdirectories_cleared hcleared (by simp) (by decide), hlast, modified,
    entriesAt_cleared hcleared (by decide), oldLastUse, modified]

private theorem unusedOld_cleared :
    unusedOld clock cutoff cleared = unusedOld clock cutoff tree := by
  rw [unusedOld, oldLastUse_cleared hcleared, oldUnits_cleared hcleared,
    subdirectories_cleared hcleared (by simp) (by decide), isDir_cleared hcleared (by decide),
    listing_cleared hcleared (by simp) (by decide), present,
    entriesAt_cleared hcleared (by decide), unusedOld, present]

private theorem unusedNew_cleared :
    unusedNew clock cutoff cleared = unusedNew clock cutoff tree := by
  rw [unusedNew, subdirectories_cleared hcleared (by simp) (by decide), unusedNew]
  refine List.flatMap_congr fun package hpackage => ?_
  obtain ⟨-, -, name, rfl⟩ := mem_subdirectories.mp hpackage
  have hbuild (rest : List String) : inRemoval (["build"] ++ rest) = false := by
    rw [inRemoval_append (by simp)]
    decide
  rw [subdirectories_cleared hcleared (by simp) (hbuild _)]
  refine List.filter_congr fun unit hunit => ?_
  obtain ⟨-, -, hash, rfl⟩ := mem_subdirectories.mp hunit
  simp only [List.append_assoc]
  rw [isDir_cleared hcleared (hbuild _), lastUse_cleared hcleared (by simp) (hbuild _)]

/-- Clearing the abandoned removals does not change what a run removes. -/
theorem unused_cleared : unused clock cutoff cleared = unused clock cutoff tree := by
  rw [unused, unusedOld_cleared hcleared, unusedNew_cleared hcleared, unused]

end Clearing

section Moving

/-- Exactly the given paths have been moved out of the profile. The packages they were in may
be gone, and anything may have happened in the removal directories. -/
structure Progress (moved : List (List String)) (before after : Tree) : Prop where
  kept : ∀ entry ∈ before, inRemoval entry.1 = false →
    (∀ path ∈ moved, ¬ path <+: entry.1 ∧ entry.1 ≠ path.dropLast) → entry ∈ after
  left : ∀ entry ∈ after, inRemoval entry.1 = false →
    entry ∈ before ∧ ∀ path ∈ moved, ¬ path <+: entry.1

private theorem Progress.trans {first second : List (List String)} {middle : Tree}
    (hfirst : Progress first before middle) (hsecond : Progress second middle after) :
    Progress (first ++ second) before after where
  kept entry hmem hremoval hspared := by
    have hmiddle := hfirst.kept entry hmem hremoval
      fun path hpath => hspared path (List.mem_append_left _ hpath)
    exact hsecond.kept entry hmiddle hremoval
      fun path hpath => hspared path (List.mem_append_right _ hpath)
  left entry hmem hremoval := by
    obtain ⟨hmiddle, hlater⟩ := hsecond.left entry hmem hremoval
    obtain ⟨hbefore, hearlier⟩ := hfirst.left entry hmiddle hremoval
    exact ⟨hbefore, fun path hpath => (List.mem_append.mp hpath).elim (hearlier path) (hlater path)⟩

private theorem progress_pruned {gone : List String → Bool} (hpruned : Pruned gone before after)
    (hgone : ∀ path, gone path = true → inRemoval path = true) : Progress [] before after where
  kept entry hmem hremoval _ := by
    refine hpruned.mem hmem (Bool.eq_false_iff.mpr fun htrue => ?_)
    rw [hgone entry.1 htrue] at hremoval
    cases hremoval
  left entry hmem _ := ⟨hpruned.1.subset hmem, by simp⟩

private theorem progress_refl : Progress [] tree tree :=
  progress_pruned Pruned.refl fun _ => id

private theorem inRemoval_of_top (hremoval : isRemoval removal = true) {rest : List String}
    (hpath : removal :: rest <+: path) : inRemoval path = true := by
  obtain ⟨back, rfl⟩ := hpath
  exact hremoval

private theorem progress_createDir {node : Node} (hremoval : isRemoval removal = true) :
    Progress [] tree (createDir removal node tree) := by
  unfold createDir
  split
  · exact progress_refl
  · refine ⟨fun entry hmem _ _ => List.mem_cons_of_mem _ hmem, fun entry hmem hentry => ?_⟩
    rcases List.mem_cons.mp hmem with rfl | hmem
    · exact absurd (hentry.symm.trans hremoval) (by decide)
    · exact ⟨hmem, by simp⟩

private theorem progress_rename (hremoval : isRemoval removal = true) {slot : String}
    (hrename : PathMoves.rename path [removal, slot] tree = some moved) :
    Progress [path] tree moved := by
  have houtside (entry : List String × Node) (hentry : inRemoval entry.1 = false) :
      ¬ [removal, slot] <+: entry.1 := fun hinside => by
    rw [inRemoval_of_top hremoval hinside] at hentry
    cases hentry
  refine ⟨fun entry hmem hentry hspared => ?_, fun entry hmem hentry => ?_⟩
  · refine mem_rename hrename hmem (hspared path (List.mem_singleton_self _)).1 fun heq => ?_
    exact houtside entry hentry (heq ▸ List.prefix_refl _)
  · obtain ⟨hbefore, hsource⟩ := of_mem_rename hrename hmem (houtside entry hentry)
    exact ⟨hbefore, by simpa using hsource⟩

private theorem Progress.removePackage {fails : Bool} (hprogress : Progress [path] before after) :
    Progress [path] before (removePackage profile path fails after) := by
  unfold Units.removePackage
  split
  · refine ⟨fun entry hmem hentry hspared => ?_, fun entry hmem hentry => ?_⟩
    · exact mem_removeDir (hprogress.kept entry hmem hentry hspared)
        (hspared path (List.mem_singleton_self _)).2
    · exact hprogress.left entry (of_mem_removeDir hmem) hentry
  · exact hprogress

/-- The loop moves the doomed paths in their order, at every point a front part of them. -/
theorem moves_progress (hremoval : isRemoval removal = true)
    (hpoint : point ∈ (moves profile removal faults index doomed tree).1) :
    ∃ moved rest, doomed = moved ++ rest ∧ Progress moved tree point := by
  induction doomed generalizing index tree with
  | nil =>
    obtain rfl := List.mem_singleton.mp hpoint
    exact ⟨[], [], rfl, progress_refl⟩
  | cons path doomed ih =>
    rw [moves] at hpoint
    split at hpoint
    · obtain rfl := List.mem_singleton.mp hpoint
      exact ⟨[], path :: doomed, rfl, progress_refl⟩
    · split at hpoint
      · obtain rfl := List.mem_singleton.mp hpoint
        exact ⟨[], path :: doomed, rfl, progress_refl⟩
      · rename_i moved hrename
        have hmoved := progress_rename hremoval hrename
        rcases List.mem_cons.mp hpoint with rfl | hpoint
        · exact ⟨[], path :: doomed, rfl, progress_refl⟩
        rcases List.mem_cons.mp hpoint with rfl | hpoint
        · exact ⟨[path], doomed, rfl, hmoved⟩
        · obtain ⟨next, rest, rfl, hnext⟩ := ih hpoint
          exact ⟨path :: next, rest, rfl, hmoved.removePackage.trans hnext⟩

/-- The tree at the end of the loop is one of those on the way. -/
theorem mem_moves_of_done
    (hdone : (moves profile removal faults index doomed tree).2 = some after) :
    after ∈ (moves profile removal faults index doomed tree).1 := by
  induction doomed generalizing index tree with
  | nil => simpa [moves, eq_comm] using hdone
  | cons path doomed ih =>
    rw [moves] at hdone ⊢
    split at hdone
    · cases hdone
    · split at hdone
      · cases hdone
      · rename_i hfault _ moved _
        rw [if_neg hfault]
        exact List.mem_cons_of_mem _ (List.mem_cons_of_mem _ (ih hdone))

private theorem isRemoval_removalOf (pid : ℕ) : isRemoval (removalOf pid) = true := by
  simp [isRemoval, removalOf]

/-- At every point of a run, the paths moved so far are a front part of the doomed ones. -/
theorem PrunePoint.progress {run : Run} (hpoint : PrunePoint run tree point) :
    ∃ moved rest, run.doomed tree = moved ++ rest ∧ Progress moved tree point := by
  have hremoval := isRemoval_removalOf run.pid
  have hmoving {cleared point : Tree} (hcleared : Pruned inRemoval tree cleared)
      (hpoint : point ∈ (run.moves cleared).1) :
      ∃ moved rest, run.doomed tree = moved ++ rest ∧ Progress moved tree point := by
    obtain ⟨moved, rest, hsplit, hmoved⟩ := moves_progress hremoval hpoint
    refine ⟨moved, rest, ?_, ?_⟩
    · rw [← hsplit, Run.doomed, Run.doomed, unused_cleared hcleared]
    · have hcreated : Progress [] cleared (createDir (removalOf run.pid) run.created cleared) :=
        progress_createDir hremoval
      exact ((progress_pruned hcleared fun _ => id).trans hcreated).trans hmoved
  cases hpoint with
  | start => exact ⟨[], _, rfl, progress_refl⟩
  | clearing _ hcleared => exact ⟨[], _, rfl, progress_pruned hcleared fun _ => id⟩
  | moving _ hcleared _ hpoint => exact hmoving hcleared hpoint
  | deleting _ hcleared _ hmoved hpruned =>
    obtain ⟨moved, rest, hsplit, hprogress⟩ := hmoving hcleared (mem_moves_of_done hmoved)
    refine ⟨moved, rest, hsplit, ?_⟩
    have hdeleted := progress_pruned hpruned fun path hpath =>
      inRemoval_of_top hremoval (List.isPrefixOf_iff_prefix.mp hpath)
    simpa using hprogress.trans hdeleted

end Moving

section Doomed

private theorem of_mem_oldUnits :
    path ∈ oldUnits tree →
      ∃ name, path = ["build", name] ∧ isDir tree path = true ∧ isOldUnit tree path = true := by
  simp only [oldUnits, List.mem_filter, mem_subdirectories, List.singleton_append]
  rintro ⟨⟨-, hdir, name, rfl⟩, hold⟩
  exact ⟨name, rfl, hdir, hold⟩

private theorem of_mem_unusedOld (hmem : path ∈ (unusedOld clock cutoff tree).2) :
    path = [".fingerprint"] ∨ path = ["deps"] ∨ path ∈ oldUnits tree := by
  unfold unusedOld at hmem
  split at hmem
  · rcases List.mem_cons.mp hmem with rfl | hmem
    · exact .inl rfl
    · rcases List.mem_append.mp hmem with hdeps | hold
      · split at hdeps <;> simp_all
      · exact .inr (.inr hold)
  · split at hmem
    · rcases List.mem_append.mp hmem with hdeps | hold
      · split at hdeps <;> simp_all
      · exact .inr (.inr hold)
    · cases hmem

private theorem of_mem_unusedNew (hmem : path ∈ unusedNew clock cutoff tree) :
    ∃ package unit, path = ["build", package, unit] ∧
      listable tree ["build", package] = true ∧ isDir tree path = true ∧
      isDir tree ["build", package, unit, "fingerprint"] = true ∧
      lastUse clock tree ["build", package, unit, "fingerprint"] < cutoff := by
  obtain ⟨_, hpackage, hunit⟩ := List.mem_flatMap.mp hmem
  obtain ⟨-, -, package, rfl⟩ := mem_subdirectories.mp hpackage
  obtain ⟨hunit, hused⟩ := List.mem_filter.mp hunit
  obtain ⟨hlistable, hdir, unit, rfl⟩ := mem_subdirectories.mp hunit
  obtain ⟨hfingerprint, hused⟩ := Bool.and_eq_true_iff.mp hused
  exact ⟨package, unit, rfl, hlistable, hdir, hfingerprint, of_decide_eq_true hused⟩

/-- A package in which a unit of the new layout is seen is not taken for a unit of the old
one. -/
theorem isOldUnit_package {package unit : String}
    (hlistable : listable tree ["build", package] = true)
    (hdir : isDir tree ["build", package, unit] = true)
    (hfingerprint : isDir tree ["build", package, unit, "fingerprint"] = true) :
    isOldUnit tree ["build", package] = false := by
  have hmem : ["build", package, unit] ∈ subdirectories tree ["build", package] :=
    mem_subdirectories.mpr ⟨hlistable, hdir, unit, rfl⟩
  have hany : ((subdirectories tree ["build", package]).any fun child =>
      isDir tree (child ++ ["fingerprint"])) = true :=
    List.any_eq_true.mpr ⟨_, hmem, hfingerprint⟩
  rw [isOldUnit, hany]
  simp

/-- Directories taken for unused units of the new layout hold no output of the old one if none
lies in a unit of the old one, and neither are their parents such outputs. -/
theorem unusedNew_spares_old {whole : Profile} {output : List String}
    (hmem : path ∈ unusedNew clock cutoff whole.tree) (houtput : IsOldOutput whole output)
    (hstrays : ∀ name ∈ whole.oldUnits, ∀ child,
      isDir whole.tree ["build", name, child, "fingerprint"] →
      cutoff ≤ lastUse clock whole.tree ["build", name, child, "fingerprint"]) :
    ¬ path <+: output ∧ output ≠ path.dropLast := by
  obtain ⟨package, unit, rfl, -, -, hfingerprint, hunused⟩ := of_mem_unusedNew hmem
  rcases houtput with ⟨rest, rfl⟩ | ⟨name, hname, rest, rfl⟩
  · simp [List.cons_prefix_cons]
  · have hne : package ≠ name := by
      rintro rfl
      have hused := hstrays package hname unit hfingerprint
      omega
    simp [List.cons_prefix_cons, hne, hne.symm]

/-- A doomed path that would take something from a unit of the new layout is the unit itself,
or its package taken for a unit of the old layout. -/
theorem doomed_over_unit {package unit : String} {output : List String}
    (hmem : path ∈ (unused clock cutoff tree).2) (hunit : ["build", package, unit] <+: output)
    (hover : path <+: output ∨ output = path.dropLast) :
    (path = ["build", package] ∧ isOldUnit tree ["build", package] = true) ∨
      (path = ["build", package, unit] ∧
        lastUse clock tree ["build", package, unit, "fingerprint"] < cutoff) := by
  obtain ⟨rest, rfl⟩ := hunit
  rcases List.mem_append.mp hmem with hold | hnew
  · rcases of_mem_unusedOld hold with rfl | rfl | hold
    · simp [List.cons_prefix_cons] at hover
    · simp [List.cons_prefix_cons] at hover
    · obtain ⟨name, rfl, -, hold⟩ := of_mem_oldUnits hold
      have hname : name = package := by simpa [List.cons_prefix_cons] using hover
      subst hname
      exact .inl ⟨rfl, hold⟩
  · obtain ⟨package', unit', rfl, -, -, -, hused⟩ := of_mem_unusedNew hnew
    have hnames : package' = package ∧ unit' = unit := by
      simpa [List.cons_prefix_cons] using hover
    obtain ⟨rfl, rfl⟩ := hnames
    exact .inr ⟨rfl, hused⟩

private theorem apart_of_length {a b : List String} (hlength : a.length = b.length) (hne : a ≠ b) :
    Apart a b :=
  ⟨fun h => hne (h.eq_of_length hlength), fun h => hne (h.eq_of_length hlength.symm).symm⟩

private theorem oldUnits_pairwise (hnodup : (tree.map Prod.fst).Nodup) :
    (oldUnits tree).Pairwise Apart := by
  refine ((subdirectories_nodup hnodup).filter _).imp_of_mem fun ha hb hne => ?_
  obtain ⟨_, rfl, -⟩ := of_mem_oldUnits ha
  obtain ⟨_, rfl, -⟩ := of_mem_oldUnits hb
  exact apart_of_length rfl hne

private theorem unusedOld_pairwise (hnodup : (tree.map Prod.fst).Nodup) :
    (unusedOld clock cutoff tree).2.Pairwise Apart := by
  have hunits := oldUnits_pairwise hnodup
  have htop (top : String) (htop : top ≠ "build") :
      ∀ path ∈ oldUnits tree, Apart [top] path := by
    intro path hpath
    obtain ⟨_, rfl, -⟩ := of_mem_oldUnits hpath
    simp [Apart, List.cons_prefix_cons, htop]
  have hdeps (listed : List (List String)) (hlisted : listed = [] ∨ listed = [["deps"]]) :
      (listed ++ oldUnits tree).Pairwise Apart := by
    rcases hlisted with rfl | rfl
    · exact hunits
    · exact List.pairwise_cons.mpr ⟨htop "deps" (by decide), hunits⟩
  unfold unusedOld
  split
  · refine List.pairwise_cons.mpr ⟨fun path hpath => ?_, hdeps _ ?_⟩
    · rcases List.mem_append.mp hpath with hpath | hpath
      · have hpath : path = ["deps"] := by split at hpath <;> simp_all
        subst hpath
        simp [Apart, List.cons_prefix_cons]
      · exact htop ".fingerprint" (by decide) path hpath
    · split <;> simp
  · split
    · refine hdeps _ ?_
      split <;> simp
    · exact List.Pairwise.nil

private theorem unusedNew_nodup (hnodup : (tree.map Prod.fst).Nodup) :
    (unusedNew clock cutoff tree).Nodup := by
  refine List.nodup_flatMap.mpr ⟨fun package _ => (subdirectories_nodup hnodup).filter _, ?_⟩
  refine (subdirectories_nodup hnodup).imp fun {a b} hne => ?_
  intro path ha hb
  obtain ⟨-, -, _, rfl⟩ := mem_subdirectories.mp (List.mem_of_mem_filter ha)
  obtain ⟨-, -, _, heq⟩ := mem_subdirectories.mp (List.mem_of_mem_filter hb)
  exact hne (List.append_inj' heq rfl).1

/-- No doomed path lies in another one. -/
theorem unused_pairwise (hnodup : (tree.map Prod.fst).Nodup) :
    (unused clock cutoff tree).2.Pairwise Apart := by
  refine List.pairwise_append.mpr ⟨unusedOld_pairwise hnodup, ?_, fun old hold new hnew => ?_⟩
  · refine (unusedNew_nodup hnodup).imp_of_mem fun ha hb hne => ?_
    obtain ⟨_, _, rfl, -⟩ := of_mem_unusedNew ha
    obtain ⟨_, _, rfl, -⟩ := of_mem_unusedNew hb
    exact apart_of_length rfl hne
  · obtain ⟨package, unit, rfl, hlistable, hdir, hfingerprint, -⟩ := of_mem_unusedNew hnew
    rcases of_mem_unusedOld hold with rfl | rfl | hold
    · simp [Apart, List.cons_prefix_cons]
    · simp [Apart, List.cons_prefix_cons]
    · obtain ⟨name, rfl, -, hold⟩ := of_mem_oldUnits hold
      have hne : name ≠ package := by
        rintro rfl
        rw [isOldUnit_package hlistable hdir hfingerprint] at hold
        cases hold
      simp [Apart, List.cons_prefix_cons, hne]

end Doomed

section Runs

variable {run : Run} {whole : Profile} {package unit : String} {rest paths : List (List String)}

private theorem Profile.isDir_parent (whole : Profile) (directory : List String) (name : String)
    (hdir : isDir whole.tree (directory ++ [name]) = true) (hne : directory ≠ []) :
    isDir whole.tree directory = true := by
  obtain ⟨entry, hmem, hpath, -⟩ := isDir_iff.mp hdir
  have hparent := (whole.closed entry hmem).2
  rw [hpath, List.dropLast_concat] at hparent
  exact hparent hne

/-- The fingerprints of the old layout are there as one directory, or there are none. -/
theorem Profile.present_fingerprints (whole : Profile)
    (hdir : isDir whole.tree [".fingerprint", unit] = true) :
    present whole.tree [".fingerprint"] = true := by
  have hparent := whole.isDir_parent [".fingerprint"] unit hdir (by simp)
  obtain ⟨entry, hmem, hpath, -⟩ := isDir_iff.mp hparent
  exact present_iff.mpr ⟨entry, hmem, hpath⟩

private theorem inRemoval_oldOutput (houtput : IsOldOutput whole path) :
    inRemoval path = false := by
  rcases houtput with ⟨rest, rfl⟩ | ⟨name, -, rest, rfl⟩
  · exact (inRemoval_cons "deps").trans (by decide)
  · exact (inRemoval_cons "build").trans (by decide)

private theorem inRemoval_newOutput (hunit : ["build", package, unit] <+: path) :
    inRemoval path = false := by
  obtain ⟨rest, rfl⟩ := hunit
  exact (inRemoval_cons "build").trans (by decide)

/-- While there is a fingerprint of the old layout, the first doomed path is the directory of
all of them, or no path of the old layout is doomed. -/
theorem unusedOld_fingerprints (clock cutoff : ℤ)
    (hpresent : present tree [".fingerprint"] = true) :
    (∃ rest, (unusedOld clock cutoff tree).2 = [".fingerprint"] :: rest) ∨
      (unusedOld clock cutoff tree).2 = [] := by
  unfold unusedOld
  split
  · exact .inl ⟨_, rfl⟩
  · rw [hpresent]
    exact .inr rfl

/-- While one fingerprint of the old layout is in use, no path of the old layout is doomed. -/
theorem unusedOld_used (hlistable : listable tree [".fingerprint"] = true)
    (hpresent : present tree [".fingerprint"] = true)
    (hdir : isDir tree [".fingerprint", unit] = true)
    (hused : cutoff ≤ lastUse clock tree [".fingerprint", unit]) :
    (unusedOld clock cutoff tree).2 = [] := by
  have hmem : [".fingerprint", unit] ∈ subdirectories tree [".fingerprint"] :=
    mem_subdirectories.mpr ⟨hlistable, hdir, unit, rfl⟩
  obtain ⟨last, hlatest, hle⟩ := le_latest (List.mem_map_of_mem (f := lastUse clock tree) hmem)
  have hlast : oldLastUse clock tree = some last := by
    rw [oldLastUse, hlatest]
    rfl
  have hcutoff : ¬ last < cutoff := by omega
  rw [unusedOld, hlast, hpresent]
  simp [hcutoff]

/-- If fingerprints of the old layout are there and none of their paths is doomed, one of them
is in use. -/
theorem used_of_unusedOld (hlistable : listable tree [".fingerprint"] = true)
    (hdir : isDir tree [".fingerprint", unit] = true)
    (hnone : (unusedOld clock cutoff tree).2 = []) :
    ∃ unit, isDir tree [".fingerprint", unit] = true ∧
      cutoff ≤ lastUse clock tree [".fingerprint", unit] := by
  have hmem : [".fingerprint", unit] ∈ subdirectories tree [".fingerprint"] :=
    mem_subdirectories.mpr ⟨hlistable, hdir, unit, rfl⟩
  obtain ⟨last, hlatest, -⟩ := le_latest (List.mem_map_of_mem (f := lastUse clock tree) hmem)
  have hlast : oldLastUse clock tree = some last := by
    rw [oldLastUse, hlatest]
    rfl
  obtain ⟨path, hpath, rfl⟩ := List.mem_map.mp (latest_mem hlatest)
  obtain ⟨-, hused, name, rfl⟩ := mem_subdirectories.mp hpath
  refine ⟨name, hused, Int.not_lt.mp fun hcutoff => ?_⟩
  change lastUse clock tree ([".fingerprint"] ++ [name]) < cutoff at hcutoff
  rw [unusedOld, hlast, Option.any_some, if_pos (decide_eq_true hcutoff)] at hnone
  cases hnone

/-- While the old layout is in use and its units are told apart, its outputs all stay. -/
theorem oldOutput_kept (happart : ToldApart run.clock run.cutoff whole)
    (hdir : isDir whole.tree [".fingerprint", unit] = true)
    (hused : run.cutoff ≤ lastUse run.clock whole.tree [".fingerprint", unit])
    (hsplit : run.doomed whole.tree = paths ++ rest)
    (hprogress : Progress paths whole.tree point)
    (hmem : entry ∈ whole.tree) (houtput : IsOldOutput whole entry.1) : entry ∈ point := by
  have hnone := unusedOld_used happart.fingerprints (whole.present_fingerprints hdir) hdir hused
  refine hprogress.kept entry hmem (inRemoval_oldOutput houtput) fun path hpath => ?_
  have hdoomed : path ∈ run.doomed whole.tree := by
    rw [hsplit]
    exact List.mem_append_left rest hpath
  rw [Run.doomed, unused, hnone, List.nil_append] at hdoomed
  exact unusedNew_spares_old hdoomed houtput (happart.strays unit hdir hused)

/-- A unit of the new layout stays whole unless it is moved itself for its age, or its package
is taken for a unit of the old layout. -/
theorem newOutput_kept (hsplit : run.doomed tree = paths ++ rest)
    (hprogress : Progress paths tree point) (hmem : entry ∈ tree)
    (hunit : ["build", package, unit] <+: entry.1)
    (hpackage : ["build", package] ∈ paths → isOldUnit tree ["build", package] = false)
    (hself : ["build", package, unit] ∈ paths →
      run.cutoff ≤ lastUse run.clock tree ["build", package, unit, "fingerprint"]) :
    entry ∈ point := by
  refine hprogress.kept entry hmem (inRemoval_newOutput hunit) fun path hpath => ?_
  have hdoomed : path ∈ run.doomed tree := by
    rw [hsplit]
    exact List.mem_append_left rest hpath
  have hspared : ¬ (path <+: entry.1 ∨ entry.1 = path.dropLast) := fun hover => by
    rcases doomed_over_unit hdoomed hunit hover with ⟨rfl, hold⟩ | ⟨rfl, hunused⟩
    · rw [hpackage hpath] at hold
      cases hold
    · have hused := hself hpath
      omega
  exact not_or.mp hspared

/-- Fingerprints go before the outputs they vouch for, and a unit of the new layout goes with
its own. -/
theorem PrunePoint.vouched (happart : ToldApart run.clock run.cutoff whole)
    (hpoint : PrunePoint run whole.tree point) : Vouched whole point := by
  obtain ⟨paths, rest, hsplit, hprogress⟩ := hpoint.progress
  refine ⟨fun unit hdir hpresent entry hmem houtput => ?_,
    fun package unit hdir hpresent entry hmem hunit => ?_⟩
  · rcases unusedOld_fingerprints run.clock run.cutoff (whole.present_fingerprints hdir) with
      ⟨others, hfirst⟩ | hnone
    · cases paths with
      | nil => exact hprogress.kept entry hmem (inRemoval_oldOutput houtput) (by simp)
      | cons first paths =>
        -- The first rename takes all fingerprints of the old layout.
        rw [Run.doomed, unused, hfirst] at hsplit
        obtain rfl := (List.cons.inj hsplit).1
        obtain ⟨fingerprint, hfingerprint, hpath⟩ := present_iff.mp hpresent
        have hremoval : inRemoval fingerprint.1 = false := by
          rw [hpath, inRemoval_cons]
          decide
        have hgone := (hprogress.left fingerprint hfingerprint hremoval).2
        exact absurd (hpath ▸ ⟨[unit], rfl⟩) (hgone [".fingerprint"] List.mem_cons_self)
    · obtain ⟨_, hdir', hused⟩ := used_of_unusedOld happart.fingerprints hdir hnone
      exact oldOutput_kept happart hdir' hused hsplit hprogress hmem houtput
  · obtain ⟨fingerprint, hfingerprint, hpath⟩ := present_iff.mp hpresent
    have hinside : ["build", package, unit] <+: fingerprint.1 := hpath ▸ ⟨["fingerprint"], rfl⟩
    have hstays := (hprogress.left fingerprint hfingerprint (inRemoval_newOutput hinside)).2
    refine newOutput_kept hsplit hprogress hmem hunit (fun hpackage => ?_) (fun hself => ?_)
    · exact absurd (List.IsPrefix.trans ⟨[unit], rfl⟩ hinside) (hstays _ hpackage)
    · exact absurd hinside (hstays _ hself)

/-- A package that is told apart is not taken for a unit of the old layout. -/
theorem ToldApart.isOldUnit (happart : ToldApart clock cutoff whole)
    (hpackage : package ∉ whole.oldUnits)
    (hdir : isDir whole.tree ["build", package, unit, "fingerprint"] = true) :
    isOldUnit whole.tree ["build", package] = false := by
  cases hsuffix : hasHashSuffix package with
  | true =>
    have hparent := whole.isDir_parent ["build", package, unit] "fingerprint" hdir (by simp)
    exact isOldUnit_package (happart.packages package unit hpackage hsuffix hdir) hparent hdir
  | false => simp [Units.isOldUnit, hsuffix]

/-- Nothing that was in use at the cutoff loses anything. -/
theorem PrunePoint.usedKept (happart : ToldApart run.clock run.cutoff whole)
    (hpoint : PrunePoint run whole.tree point) :
    UsedKept run.clock run.cutoff whole point := by
  obtain ⟨paths, rest, hsplit, hprogress⟩ := hpoint.progress
  refine ⟨fun unit hdir hused entry hmem houtput => ?_,
    fun package unit hpackage hdir hused entry hmem hunit => ?_⟩
  · exact oldOutput_kept happart hdir hused hsplit hprogress hmem houtput
  · exact newOutput_kept hsplit hprogress hmem hunit
      (fun _ => happart.isOldUnit hpackage hdir) (fun _ => hused)

/-- Wherever a run of `prune` over a profile whose units are told apart crashes, fails or ends,
no fingerprint vouches for an output that is gone and nothing in use at the cutoff has lost
anything. The paths it chose for removal lie apart in every profile. -/
theorem prune_points_consistent (whole : Profile) (run : Run) (point : Tree)
    (hpoint : PrunePoint run whole.tree point) :
    (ToldApart run.clock run.cutoff whole →
      Vouched whole point ∧ UsedKept run.clock run.cutoff whole point) ∧
      ∀ cleared, Pruned inRemoval whole.tree cleared → (run.doomed cleared).Pairwise Apart := by
  refine ⟨fun happart => ⟨hpoint.vouched happart, hpoint.usedKept happart⟩,
    fun cleared hcleared => ?_⟩
  rw [Run.doomed, unused_cleared hcleared]
  exact unused_pairwise whole.nodup

/-- A profile with unused units of the old layout, one used and one unused unit of the new one,
and the rest of an earlier removal. -/
def mixedTree : Tree :=
  let directory (time : ℤ) : Node := ⟨true, time, time, true⟩
  let file (time : ℤ) : Node := ⟨false, time, time, true⟩
  [([".fingerprint"], directory 1), ([".fingerprint", "a"], directory 1),
    ([".fingerprint", "a", "dep"], file 2), (["deps"], directory 1), (["deps", "a.rlib"], file 1),
    (["build"], directory 1), (["build", "a-0123456789abcdef"], directory 1),
    (["build", "b"], directory 1), (["build", "b", "1"], directory 1),
    (["build", "b", "1", "fingerprint"], directory 9), (["build", "b", "2"], directory 1),
    (["build", "b", "2", "fingerprint"], directory 1), ([".mbx-removing-3"], directory 1)]

def mixedProfile : Profile := ⟨mixedTree, ["a-0123456789abcdef"], by decide, by decide⟩

/-- A run whose rename of the third path fails. -/
def failingRun : Run :=
  ⟨["target", "debug"], 7, false, 10, 5, ⟨true, 10, 10, true⟩, ⟨(· == 2), fun _ => false⟩⟩

/-- The profile where the run fails: all fingerprints of the old layout and `deps` have gone to
the removal directory. -/
def failedTree : Tree :=
  ((failingRun.moves mixedTree).1.getLast?).getD []

private theorem mixedProfile_toldApart : ToldApart 10 5 mixedProfile := by
  have hunits : ∀ entry ∈ mixedTree, entry.1.length = 4 → entry.1.take 2 = ["build", "b"] := by
    decide
  have hpackage (package unit : String)
      (hdir : isDir mixedTree ["build", package, unit, "fingerprint"] = true) :
      package = "b" := by
    obtain ⟨entry, hmem, hpath, -⟩ := isDir_iff.mp hdir
    have htake := hunits entry hmem (by rw [hpath]; rfl)
    rw [hpath] at htake
    exact (List.cons.inj (List.cons.inj htake).2).1
  refine ⟨by decide, fun package unit _ hsuffix hdir => ?_,
    fun unit _ _ name hname child hdir => ?_⟩
  · rw [hpackage package unit hdir] at hsuffix
    exact absurd hsuffix (by decide)
  · rw [hpackage name child hdir] at hname
    exact absurd hname (by decide)

theorem prune_points_consistent_failing :
    PrunePoint failingRun mixedProfile.tree failedTree ∧
      present failedTree [".mbx-removing-7", "1", "a.rlib"] = true ∧
      Vouched mixedProfile failedTree := by
  have hpoint : PrunePoint failingRun mixedProfile.tree failedTree :=
    .moving rfl Pruned.refl (by decide +kernel) (by decide +kernel)
  exact ⟨hpoint, by decide +kernel,
    ((prune_points_consistent mixedProfile failingRun failedTree hpoint).1
      mixedProfile_toldApart).1⟩

/-- A profile of the old layout in use, where a build script once wrote a directory
`fingerprint`. -/
def strayTree : Tree :=
  let directory (time : ℤ) : Node := ⟨true, time, time, true⟩
  [([".fingerprint"], directory 1), ([".fingerprint", "a"], directory 9),
    (["build"], directory 1), (["build", "a-0123456789abcdef"], directory 1),
    (["build", "a-0123456789abcdef", "out"], directory 1),
    (["build", "a-0123456789abcdef", "out", "fingerprint"], directory 1)]

def strayProfile : Profile := ⟨strayTree, ["a-0123456789abcdef"], by decide, by decide⟩

/-- A run in which nothing fails. -/
def calmRun : Run :=
  ⟨["target", "debug"], 7, false, 10, 5, ⟨true, 10, 10, true⟩,
    ⟨fun _ => false, fun _ => false⟩⟩

/-- The unit's `out` is taken for an unused unit of the new layout and goes, though the
fingerprint that vouches for it stays and is in use. -/
theorem prune_takes_stray_fingerprint :
    ∃ point, PrunePoint calmRun strayProfile.tree point ∧
      ¬ Vouched strayProfile point ∧ ¬ UsedKept 10 5 strayProfile point := by
  have hgone : ((["build", "a-0123456789abcdef", "out"], ⟨true, 1, 1, true⟩) : List String × Node) ∉
      ((calmRun.moves strayTree).1.getLast?).getD [] := by decide +kernel
  have hold : IsOldOutput strayProfile ["build", "a-0123456789abcdef", "out"] :=
    .inr ⟨"a-0123456789abcdef", by decide, ["out"], rfl⟩
  refine ⟨((calmRun.moves strayTree).1.getLast?).getD [],
    .moving rfl Pruned.refl (by decide +kernel) (by decide +kernel), fun hvouched => ?_,
    fun hused => ?_⟩
  · exact hgone (hvouched.old "a" (by decide) (by decide +kernel) _ (by decide) hold)
  · exact hgone (hused.old "a" (by decide) (by decide) _ (by decide) hold)

end Runs

end MrBoxington.Target.Units
