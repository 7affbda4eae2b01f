import Mathlib.Logic.Function.Basic
import MrBoxington.Lib.LinkWalk
import MrBoxington.Rustc.MappedPaths

/-!
# Directories that are resolved once

Links are followed in a path by resolving its directory, which is remembered together with some
of the names in it, and then its last name. The system follows links on the whole path at once
and gives up after so many. So the answer is the system's, unless there are too many links in
all while there are not too many to the directory and not too many from the last name.
-/

namespace MrBoxington.Rustc

open LinkWalk (Move walk)

variable {ν : Type*}

/-! ## Volumes -/

/-- A component of the path in a link. -/
inductive LinkStep (ν : Type*) where
  | down (name : ν)
  | stay
  | up
  | top

/-- What the system finds at a path without following a link there. -/
inductive VolumeEntry (ν : Type*) where
  | directory
  | file
  | link (target : List (LinkStep ν))

/-- A file system, which may fold the case of names. Places are given by the names that the
system reports for them. -/
structure Volume (ν : Type*) where
  lstat : List ν → Option (VolumeEntry ν)
  reported : List ν → ν → ν
  /-- The names in a directory, if it may be read. An entry may fail to be read. -/
  readDir : List ν → Option (List (Option ν))
  lstat_reported (directory : List ν) (name : ν) :
    lstat (directory ++ [reported directory name]) = lstat (directory ++ [name])
  reported_reported (directory : List ν) (name : ν) :
    reported directory (reported directory name) = reported directory name
  reported_listed (directory : List ν) (listing : List (Option ν)) (name : ν)
    (hlisting : readDir directory = some listing) (hname : some name ∈ listing) :
    reported directory name = name

namespace Volume

variable (volume : Volume ν)

/-- There is a directory at a place. -/
def isDir (place : List ν) : Bool :=
  match volume.lstat place with
  | some .directory => true
  | _ => false

/-- What one component of a path leads to. -/
def step (place : List ν) : LinkStep ν → Option (Move (List ν) (LinkStep ν))
  | .down name =>
    match volume.lstat (place ++ [name]) with
    | none => none
    | some (.link target) => some (.follow target)
    | some _ => some (.enter (place ++ [volume.reported place name]))
  | .stay => if volume.isDir place then some (.enter place) else none
  | .up => if volume.isDir place then some (.enter place.dropLast) else none
  | .top => some (.enter [])

/-- The system's own way to follow the links in a normalized absolute path, which is given by its
names. It gives up after so many links. -/
def canonicalize (limit : ℕ) (path : List ν) : Option (List ν) :=
  (walk volume.step limit [] (path.map .down)).map Prod.fst

end Volume

section Places

variable {volume : Volume ν} {limit : ℕ} {directory : List ν} {name : ν}

/-- The place is reached by the names that the system reports for it. -/
inductive ReportedPlace (volume : Volume ν) : List ν → Prop where
  | root : ReportedPlace volume []
  | entry {directory : List ν} {name : ν} (hdirectory : ReportedPlace volume directory)
      (hname : volume.step directory (.down name) = some (.enter (directory ++ [name]))) :
      ReportedPlace volume (directory ++ [name])

private theorem ReportedPlace.dropLast (hreal : ReportedPlace volume directory) :
    ReportedPlace volume directory.dropLast := by
  cases hreal with
  | root => exact .root
  | entry hdirectory _ =>
    rw [List.dropLast_concat]
    exact hdirectory

private theorem ReportedPlace.step {next : List ν} {first : LinkStep ν}
    (hreal : ReportedPlace volume directory)
    (hstep : volume.step directory first = some (.enter next)) : ReportedPlace volume next := by
  cases first with
  | down name =>
    have hnext : next = directory ++ [volume.reported directory name] ∧
        volume.step directory (.down (volume.reported directory name)) = some (.enter next) := by
      unfold Volume.step at hstep ⊢
      dsimp only at hstep ⊢
      rw [volume.lstat_reported, volume.reported_reported]
      cases hentry : volume.lstat (directory ++ [name]) with
      | none => simp [hentry] at hstep
      | some entry => cases entry <;> simp_all
    obtain ⟨rfl, hname⟩ := hnext
    exact .entry hreal hname
  | stay =>
    dsimp only [Volume.step] at hstep
    split at hstep <;> cases hstep
    exact hreal
  | up =>
    dsimp only [Volume.step] at hstep
    split at hstep <;> cases hstep
    exact hreal.dropLast
  | top =>
    cases hstep
    exact .root

private theorem ReportedPlace.walk_root (hreal : ReportedPlace volume directory) :
    walk volume.step limit [] (directory.map .down) = some (directory, limit) := by
  induction hreal with
  | root => exact LinkWalk.walk_nil
  | entry _ hname ih =>
    rw [List.map_append, LinkWalk.walk_append, ih, Option.bind_some, List.map_singleton,
      LinkWalk.walk_enter hname, LinkWalk.walk_nil]

private theorem ReportedPlace.canonicalize_entry (hreal : ReportedPlace volume directory) :
    volume.canonicalize limit (directory ++ [name]) =
      (walk volume.step limit directory [.down name]).map Prod.fst := by
  rw [Volume.canonicalize, List.map_append, LinkWalk.walk_append, hreal.walk_root]
  rfl

private theorem Volume.canonicalize_concat {parent : List ν} :
    volume.canonicalize limit (parent ++ [name]) =
      (walk volume.step limit [] (parent.map .down)).bind fun reached =>
        (walk volume.step reached.2 reached.1 [.down name]).map Prod.fst := by
  rw [canonicalize, List.map_append, LinkWalk.walk_append, Option.map_bind]
  rfl

end Places

/-! ## Aliases -/

/-- A directory as the system names it, and some names it holds. -/
structure ResolvedDirectory (ν : Type*) where
  path : List ν
  entries : List ν

/-- The directories that are resolved, by their paths. -/
abbrev PathAliases (ν : Type*) := List ν → Option (ResolvedDirectory ν)

/-- The names of a directory that are remembered. -/
def Volume.entries (volume : Volume ν) (directory : List ν) : List ν :=
  (((volume.readDir directory).getD []).take maxDirectoryEntries).filterMap id

private theorem Volume.reported_of_mem_entries {volume : Volume ν} {directory : List ν} {name : ν}
    (hname : name ∈ volume.entries directory) :
    volume.reported directory name = name := by
  obtain ⟨entry, hentry, heq⟩ := List.mem_filterMap.mp hname
  subst heq
  have hmem := List.mem_of_mem_take hentry
  cases hlisting : volume.readDir directory with
  | none => simp [hlisting] at hmem
  | some listing =>
    rw [hlisting] at hmem
    exact volume.reported_listed directory listing name hlisting hmem

/-- A directory with links followed and the names that are remembered of it. -/
def Volume.resolveDirectory (volume : Volume ν) (limit : ℕ) (parent : List ν) :
    Option (ResolvedDirectory ν) :=
  (volume.canonicalize limit parent).map fun path => ⟨path, volume.entries path⟩

variable [DecidableEq ν]

/-- What a name leads to in a directory that is resolved. -/
def Volume.canonicalizeIn (volume : Volume ν) (limit : ℕ) (parent : ResolvedDirectory ν)
    (name : ν) : Option (List ν) :=
  let candidate := parent.path ++ [name]
  if name ∈ parent.entries then
    match volume.lstat candidate with
    | none => none
    | some (.link _) => volume.canonicalize limit candidate
    | some _ => some candidate
  else volume.canonicalize limit candidate

/-- A path with links followed, through the directories that are resolved already. -/
def PathAliases.canonicalize (volume : Volume ν) (limit : ℕ) (aliases : PathAliases ν)
    (path : List ν) : Option (List ν) × PathAliases ν :=
  match path.getLast? with
  | none => (volume.canonicalize limit path, aliases)
  | some name =>
    match aliases path.dropLast with
    | some resolved => (volume.canonicalizeIn limit resolved name, aliases)
    | none =>
      match volume.resolveDirectory limit path.dropLast with
      | none => (none, aliases)
      | some resolved =>
        (volume.canonicalizeIn limit resolved name,
          Function.update aliases path.dropLast (some resolved))

/-- The path with links followed as far as there is something. What is left to try is given from
its end, with the names that were taken from it. -/
def resolveExisting (volume : Volume ν) (limit : ℕ) (path : List ν) (aliases : PathAliases ν)
    (reversed missing : List ν) : List ν × PathAliases ν :=
  match aliases.canonicalize volume limit reversed.reverse with
  | (some resolved, aliases) => (resolved ++ missing, aliases)
  | (none, aliases) =>
    match reversed with
    | [] => (path, aliases)
    | name :: rest => resolveExisting volume limit path aliases rest (name :: missing)

/-- The path with links followed, and what does not exist as it is written. -/
def resolvePathAliasesWith (volume : Volume ν) (limit : ℕ) (aliases : PathAliases ν)
    (path : List ν) : List ν × PathAliases ν :=
  resolveExisting volume limit path aliases path.reverse []

/-- One use of the aliases. -/
inductive AliasCall (ν : Type*) where
  | canonicalize (path : List ν)
  | resolve (path : List ν)

/-- The aliases after a use of them. -/
def AliasCall.run (volume : Volume ν) (limit : ℕ) (aliases : PathAliases ν) :
    AliasCall ν → PathAliases ν
  | canonicalize path => (aliases.canonicalize volume limit path).2
  | resolve path => (resolvePathAliasesWith volume limit aliases path).2

/-- The aliases after any uses of them. -/
def aliasesAfter (volume : Volume ν) (limit : ℕ) (calls : List (AliasCall ν)) : PathAliases ν :=
  calls.foldl (AliasCall.run volume limit) fun _ => none

/-! ## What is remembered -/

section Memo

variable {volume : Volume ν} {limit : ℕ} {aliases aliases' : PathAliases ν}
  {path reversed missing : List ν}

/-- Every directory is remembered as it would be resolved now. -/
def Remembers (volume : Volume ν) (limit : ℕ) (aliases : PathAliases ν) : Prop :=
  ∀ parent resolved, aliases parent = some resolved →
    volume.resolveDirectory limit parent = some resolved

/-- What is found for a path when nothing is remembered. -/
def Volume.canonicalizeApart (volume : Volume ν) (limit : ℕ) (path : List ν) : Option (List ν) :=
  match path.getLast? with
  | none => volume.canonicalize limit path
  | some name =>
    (volume.resolveDirectory limit path.dropLast).bind fun resolved =>
      volume.canonicalizeIn limit resolved name

private theorem Remembers.canonicalize_fst (hremembers : Remembers volume limit aliases) :
    (aliases.canonicalize volume limit path).1 = volume.canonicalizeApart limit path := by
  unfold PathAliases.canonicalize Volume.canonicalizeApart
  cases path.getLast? with
  | none => rfl
  | some name =>
    cases hknown : aliases path.dropLast with
    | some resolved => simp [hremembers _ _ hknown]
    | none => cases volume.resolveDirectory limit path.dropLast <;> rfl

private theorem Remembers.canonicalize_snd (hremembers : Remembers volume limit aliases) :
    Remembers volume limit (aliases.canonicalize volume limit path).2 := by
  unfold PathAliases.canonicalize
  cases path.getLast? with
  | none => exact hremembers
  | some name =>
    cases aliases path.dropLast with
    | some resolved => exact hremembers
    | none =>
      cases hresolved : volume.resolveDirectory limit path.dropLast with
      | none => exact hremembers
      | some resolved =>
        intro parent found hfound
        dsimp only at hfound
        by_cases hparent : parent = path.dropLast
        · subst hparent
          rw [Function.update_self] at hfound
          rw [hresolved, hfound]
        · rw [Function.update_of_ne hparent] at hfound
          exact hremembers _ _ hfound

private theorem Remembers.resolveExisting_eq (hremembers : Remembers volume limit aliases) :
    resolveExisting volume limit path aliases reversed missing =
      match volume.canonicalizeApart limit reversed.reverse with
      | some resolved =>
        (resolved ++ missing, (aliases.canonicalize volume limit reversed.reverse).2)
      | none =>
        match reversed with
        | [] => (path, (aliases.canonicalize volume limit reversed.reverse).2)
        | name :: rest =>
          resolveExisting volume limit path
            (aliases.canonicalize volume limit reversed.reverse).2 rest (name :: missing) := by
  rw [← hremembers.canonicalize_fst, resolveExisting.eq_def]
  rcases aliases.canonicalize volume limit reversed.reverse with ⟨_ | resolved, next⟩ <;> rfl

private theorem Remembers.resolveExisting_same (hremembers : Remembers volume limit aliases)
    (hremembers' : Remembers volume limit aliases') :
    (resolveExisting volume limit path aliases reversed missing).1 =
        (resolveExisting volume limit path aliases' reversed missing).1 ∧
      Remembers volume limit (resolveExisting volume limit path aliases reversed missing).2 := by
  induction reversed generalizing aliases aliases' missing with
  | nil =>
    rw [hremembers.resolveExisting_eq, hremembers'.resolveExisting_eq]
    cases volume.canonicalizeApart limit [].reverse with
    | none => exact ⟨rfl, hremembers.canonicalize_snd⟩
    | some resolved => exact ⟨rfl, hremembers.canonicalize_snd⟩
  | cons name rest ih =>
    rw [hremembers.resolveExisting_eq, hremembers'.resolveExisting_eq]
    cases volume.canonicalizeApart limit (name :: rest).reverse with
    | none => exact ih hremembers.canonicalize_snd hremembers'.canonicalize_snd
    | some resolved => exact ⟨rfl, hremembers.canonicalize_snd⟩

private theorem remembers_aliasesAfter {calls : List (AliasCall ν)} :
    Remembers volume limit (aliasesAfter volume limit calls) := by
  have hfold (aliases : PathAliases ν) (hremembers : Remembers volume limit aliases) :
      Remembers volume limit (calls.foldl (AliasCall.run volume limit) aliases) := by
    induction calls generalizing aliases with
    | nil => exact hremembers
    | cons call rest ih =>
      refine ih _ ?_
      cases call with
      | canonicalize path => exact hremembers.canonicalize_snd
      | resolve path => exact (hremembers.resolveExisting_same hremembers).2
  exact hfold _ fun _ _ hnone => by cases hnone

end Memo

/-! ## The system's answer -/

section Answer

variable {volume : Volume ν} {limit : ℕ} {directory path : List ν} {name : ν}

private theorem ReportedPlace.canonicalizeIn (hreal : ReportedPlace volume directory) :
    volume.canonicalizeIn limit ⟨directory, volume.entries directory⟩ name =
      (walk volume.step limit directory [.down name]).map Prod.fst := by
  unfold Volume.canonicalizeIn
  dsimp only
  by_cases hlisted : name ∈ volume.entries directory
  · rw [if_pos hlisted]
    have hreported := Volume.reported_of_mem_entries hlisted
    cases hentry : volume.lstat (directory ++ [name]) with
    | none =>
      rw [LinkWalk.walk_none (by simp [Volume.step, hentry])]
      rfl
    | some entry =>
      cases entry with
      | link target => exact hreal.canonicalize_entry
      | directory =>
        rw [LinkWalk.walk_enter (by simp [Volume.step, hentry, hreported]; rfl)]
        simp
      | file =>
        rw [LinkWalk.walk_enter (by simp [Volume.step, hentry, hreported]; rfl)]
        simp
  · rw [if_neg hlisted, hreal.canonicalize_entry]

/-- The links to the directory of a path can be followed, and those from its last name on their
own, but not all of them in one go. -/
def TooManyTogether (volume : Volume ν) (limit : ℕ) (path : List ν) : Prop :=
  ∃ parent name directory found left left', path = parent ++ [name] ∧
    walk volume.step limit [] (parent.map .down) = some (directory, left) ∧
    walk volume.step limit directory [.down name] = some (found, left') ∧
    limit < (limit - left) + (limit - left')

private theorem Volume.canonicalizeApart_concat {parent : List ν} :
    volume.canonicalizeApart limit (parent ++ [name]) =
      (walk volume.step limit [] (parent.map .down)).bind fun reached =>
        (walk volume.step limit reached.1 [.down name]).map Prod.fst := by
  have hdirectory : volume.canonicalizeApart limit (parent ++ [name]) =
      ((volume.canonicalize limit parent).map fun path => ⟨path, volume.entries path⟩).bind
        fun resolved => volume.canonicalizeIn limit resolved name := by
    rw [canonicalizeApart, List.getLast?_concat, List.dropLast_concat]
    rfl
  rw [hdirectory, canonicalize]
  cases hwalk : walk volume.step limit [] (parent.map .down) with
  | none => rfl
  | some reached =>
    have hreal : ReportedPlace volume reached.1 :=
      LinkWalk.walk_invariant .root (fun _ _ _ => ReportedPlace.step) hwalk
    exact hreal.canonicalizeIn

private theorem Volume.canonicalizeApart_iff :
    volume.canonicalizeApart limit path = volume.canonicalize limit path ↔
      ¬ TooManyTogether volume limit path := by
  cases path using List.reverseRecOn with
  | nil =>
    refine iff_of_true rfl ?_
    rintro ⟨parent, name, -, -, -, -, hpath, -⟩
    exact absurd hpath.symm (List.append_ne_nil_of_right_ne_nil _ (List.cons_ne_nil _ _))
  | append_singleton parent name =>
    rw [canonicalizeApart_concat, canonicalize_concat]
    have hiff : TooManyTogether volume limit (parent ++ [name]) ↔ ∃ directory found left left',
        walk volume.step limit [] (parent.map .down) = some (directory, left) ∧
        walk volume.step limit directory [.down name] = some (found, left') ∧
        limit < (limit - left) + (limit - left') := by
      constructor
      · rintro ⟨parent', name', directory, found, left, left', hpath, hrest⟩
        obtain ⟨rfl, heq⟩ := List.append_inj' hpath rfl
        cases heq
        exact ⟨directory, found, left, left', hrest⟩
      · rintro ⟨directory, found, left, left', hrest⟩
        exact ⟨parent, name, directory, found, left, left', rfl, hrest⟩
    rw [hiff]
    cases hparent : walk volume.step limit [] (parent.map .down) with
    | none => simp
    | some reached =>
      obtain ⟨directory, left⟩ := reached
      have hle := LinkWalk.walk_left_le hparent
      have hfewer := @LinkWalk.walk_fewer _ _ volume.step directory [.down name] left (limit - left)
      rw [Nat.add_sub_cancel' hle] at hfewer
      rw [Option.bind_some, Option.bind_some, hfewer]
      cases hname : walk volume.step limit directory [.down name] with
      | none => simp [hname]
      | some reached =>
        obtain ⟨found, left'⟩ := reached
        have hle' := LinkWalk.walk_left_le hname
        by_cases htogether : limit - left ≤ left'
        · rw [Option.bind_some, if_pos htogether]
          refine iff_of_true rfl ?_
          rintro ⟨directory', found', left₁, left₂, hwalk, hwalk', hlt⟩
          cases hwalk
          rw [hname] at hwalk'
          cases hwalk'
          omega
        · rw [Option.bind_some, if_neg htogether]
          refine iff_of_false (fun heq => by cases heq) (not_not.mpr ?_)
          exact ⟨directory, found, left, left', rfl, hname, by omega⟩

/-- Whatever the aliases were used for, they follow the links in a path as the system does unless
there are too many on the whole path only. What is remembered makes no difference. -/
theorem aliases_canonicalize_iff (volume : Volume ν) (limit : ℕ) (calls : List (AliasCall ν))
    (path : List ν) :
    (((aliasesAfter volume limit calls).canonicalize volume limit path).1 =
        volume.canonicalize limit path ↔ ¬ TooManyTogether volume limit path) ∧
      (resolvePathAliasesWith volume limit (aliasesAfter volume limit calls) path).1 =
        (resolvePathAliasesWith volume limit (aliasesAfter volume limit []) path).1 := by
  constructor
  · rw [remembers_aliasesAfter.canonicalize_fst, Volume.canonicalizeApart_iff]
  · exact (remembers_aliasesAfter.resolveExisting_same remembers_aliasesAfter).1

end Answer

/-! ## Links in a row -/

/-- In the root, and in the one directory in it, each name is a link to the name before it. -/
def chainVolume : Volume ℕ where
  lstat
    | [] => some .directory
    | [0] => some .directory
    | [name + 1] => some (.link [.down name])
    | [0, 0] => some .file
    | [0, name + 1] => some (.link [.down name])
    | _ => none
  reported _ name := name
  readDir _ := none
  lstat_reported _ _ := rfl
  reported_reported _ _ := rfl
  reported_listed _ _ _ _ _ := rfl

private theorem chainVolume_walk {links name : ℕ} :
    walk chainVolume.step (links + name) [] [.down name] = some ([0], links) := by
  induction name with
  | zero => exact (LinkWalk.walk_enter rfl).trans LinkWalk.walk_nil
  | succ name ih => exact (LinkWalk.walk_follow rfl).trans ih

private theorem chainVolume_walk_directory {links name : ℕ} :
    walk chainVolume.step (links + name) [0] [.down name] = some ([0, 0], links) := by
  induction name with
  | zero => exact (LinkWalk.walk_enter rfl).trans LinkWalk.walk_nil
  | succ name ih => exact (LinkWalk.walk_follow rfl).trans ih

/-- As many links as the system follows lead to the directory, and the last name is one more. -/
theorem links_one_after_the_other :
    chainVolume.canonicalize 40 [40, 1] = none ∧
      ((aliasesAfter chainVolume 40 []).canonicalize chainVolume 40 [40, 1]).1 = some [0, 0] := by
  have hparent : walk chainVolume.step 40 [] [.down 40] = some ([0], 0) := @chainVolume_walk 0 40
  constructor
  · refine (@Volume.canonicalize_concat _ _ _ _ [40]).trans ?_
    rw [List.map_singleton, hparent, Option.bind_some, LinkWalk.walk_follow_zero rfl]
    rfl
  · rw [remembers_aliasesAfter.canonicalize_fst]
    refine (@Volume.canonicalizeApart_concat _ _ _ _ _ [40]).trans ?_
    rw [List.map_singleton, hparent, Option.bind_some, @chainVolume_walk_directory 39 1]
    rfl

end MrBoxington.Rustc
