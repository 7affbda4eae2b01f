import MrBoxington.OutDir.LeaseTable

/-!
# Trees stay while they are used

A publish lock is removed only when nobody has a lease on its digest. A tree that was
returned to a process is not renamed away while the process lives, provided that no call
that fails releases the lease under another call of the same process. All calls of a
process share one lease, so a second call that fails otherwise leaves the first one with
a tree that can be collected.
-/

namespace MrBoxington.OutDir

variable {τ π δ : Type}

/-- The digest whose lease a call relies on. -/
def Phase.relies? : Phase π δ → Option δ
  | .leasing d .registered => some d
  | .leasing d .leased => some d
  | .publishing _ (.closing false) => none
  | .publishing d _ => some d
  | _ => none

/-- A call that is about to release the lease of its process is the only one that had it:
no call has returned the tree, and none relies on the lease. -/
def Careful (owner : τ → π) (s : State τ π δ) (t : τ) : Prop :=
  ∀ d, s.phase t = .releasing d .removing →
    s.returned (owner t) d = false ∧ ∀ u, owner u = owner t → (s.phase u).relies? ≠ some d

/-- One step in which every thread is careful. -/
def CarefulStep [DecidableEq τ] [DecidableEq π] [DecidableEq δ] (owner : τ → π)
    (s s' : State τ π δ) : Prop :=
  ExitStep owner s s' ∨
    ∃ t, s.alive (owner t) = true ∧ Careful owner s t ∧ ThreadStep owner t s s'

/-- Live processes have the leases that they need. -/
structure Kept (owner : τ → π) (s : State τ π δ) : Prop where
  relies : ∀ t d, s.alive (owner t) = true → (s.phase t).relies? = some d →
    s.table (owner t) d ≠ none
  returned : ∀ p d, s.alive p = true → s.returned p d = true → s.table p d ≠ none

section Steps

variable [DecidableEq τ] {owner : τ → π} {t : τ} {s s' : State τ π δ} {next : Phase π δ} {d : δ}

private theorem Kept.goto (hkept : Kept owner s) (halive : s.alive (owner t) = true)
    (hsame : s'.alive = s.alive) (hphase : s'.phase = s.phase)
    (htable : ∀ p d, s.table p d ≠ none → s'.table p d = none →
      s.returned p d = false ∧ ∀ u, owner u = p → (s.phase u).relies? ≠ some d)
    (hreturned : ∀ p d, s'.returned p d = true → s.returned p d = true ∨
      p = owner t ∧ (s.phase t).relies? = some d)
    (hrelies : ∀ d, next.relies? = some d → (s.phase t).relies? = some d ∨
      s'.table (owner t) d ≠ none) : Kept owner (s'.goto t next) := by
  -- Whatever was needed is still in the table.
  have hused : ∀ u d, s.alive (owner u) = true → (s.phase u).relies? = some d →
      s'.table (owner u) d ≠ none := fun u d hlive hu hnone =>
    (htable (owner u) d (hkept.relies u d hlive hu) hnone).2 u rfl hu
  constructor
  · intro u d hlive hu
    rw [State.goto_alive, hsame] at hlive
    by_cases hut : u = t
    · subst hut
      rcases hrelies d (by simpa using hu) with hold | hnew
      · exact hused u d hlive hold
      · exact hnew
    · exact hused u d hlive (by simpa [hut, hphase] using hu)
  · intro p d hlive hp
    rw [State.goto_alive, hsame] at hlive
    rcases hreturned p d hp with hold | ⟨rfl, hnew⟩
    · intro hnone
      have hlost := (htable p d (hkept.returned p d hlive hold) hnone).1
      rw [hold] at hlost
      cases hlost
    · exact hused t d halive hnew

private theorem Kept.follow (hkept : Kept owner s) (halive : s.alive (owner t) = true)
    (hsame : s'.alive = s.alive) (hphase : s'.phase = s.phase) (htable : s'.table = s.table)
    (hreturned : s'.returned = s.returned)
    (hrelies : ∀ d, next.relies? = some d → (s.phase t).relies? = some d ∨
      s.table (owner t) d ≠ none) : Kept owner (s'.goto t next) := by
  refine hkept.goto halive hsame hphase ?_ (fun _ _ h => .inl (hreturned ▸ h)) ?_
  · intro p d hsome hnone
    rw [htable] at hnone
    exact absurd hnone hsome
  · simpa [htable] using hrelies

variable [DecidableEq π] [DecidableEq δ]

private theorem Kept.leasing (hkept : Kept owner s) (halive : s.alive (owner t) = true)
    {point : LeasePoint π} (hphase : s.phase t = .leasing d point)
    (hstep : LeaseStep (owner t) t d point s next s') : Kept owner (s'.goto t next) := by
  cases hstep with
  | found _ hheld =>
    refine hkept.follow halive rfl rfl rfl rfl fun d' hd' => .inr ?_
    obtain rfl : d = d' := by simpa [Phase.relies?] using hd'
    exact hheld
  | lock _ name inode hfree =>
    refine hkept.goto halive rfl rfl ?_ (fun _ _ h => .inl h) fun d' hd' => .inr ?_
    · intro p d' hsome hnone
      refine absurd ?_ hsome
      by_cases hp : p = owner t
      · subst hp
        by_cases hd : d' = d
        · simp [hd] at hnone
        · simpa [hd] using hnone
      · simpa [hp] using hnone
    · obtain rfl : d = d' := by simpa [Phase.relies?] using hd'
      simp
  | _ =>
    refine hkept.follow halive rfl rfl rfl rfl ?_
    simp [hphase, Phase.relies?]

private theorem Kept.publishing (hkept : Kept owner s) (halive : s.alive (owner t) = true)
    {point : PublishPoint} (hphase : s.phase t = .publishing d point)
    (hstep : PublishStep (owner t) t d point s next s') : Kept owner (s'.goto t next) := by
  cases hstep with
  | finish _ =>
    refine hkept.goto halive rfl rfl (fun _ _ hsome hnone => absurd hnone hsome) ?_
      (by simp [Phase.relies?])
    intro p d' hp
    by_cases hproc : p = owner t
    · subst hproc
      by_cases hd : d' = d
      · exact .inr ⟨rfl, by simp [hphase, Phase.relies?, hd]⟩
      · exact .inl (by simpa [hd] using hp)
    · exact .inl (by simpa [hproc] using hp)
  | _ =>
    refine hkept.follow halive rfl rfl rfl rfl ?_
    simp [hphase, Phase.relies?]

private theorem Kept.releasing (hkept : Kept owner s) (halive : s.alive (owner t) = true)
    (hcareful : Careful owner s t) {point : ReleasePoint π}
    (hphase : s.phase t = .releasing d point)
    (hstep : ReleaseStep (owner t) t d point s next s') : Kept owner (s'.goto t next) := by
  cases hstep with
  | remove _ lease hheld =>
    refine hkept.goto halive rfl rfl ?_ (fun _ _ h => .inl h) (by simp [Phase.relies?])
    intro p d' hsome hnone
    by_cases hp : p = owner t
    · subst hp
      by_cases hd : d' = d
      · subst hd
        exact hcareful d' hphase
      · exact absurd (by simpa [hd] using hnone) hsome
    · exact absurd (by simpa [hp] using hnone) hsome
  | _ =>
    refine hkept.follow halive rfl rfl rfl rfl ?_
    simp [Phase.relies?]

private theorem Kept.thread (hkept : Kept owner s) (halive : s.alive (owner t) = true)
    (hcareful : Careful owner s t) (hstep : ThreadStep owner t s s') : Kept owner s' := by
  cases hstep with
  | leasing hphase hstep => exact hkept.leasing halive hphase hstep
  | publishing hphase hstep => exact hkept.publishing halive hphase hstep
  | releasing hphase hstep => exact hkept.releasing halive hcareful hphase hstep
  | collecting hphase hstep =>
    cases hstep <;> exact hkept.follow halive rfl rfl rfl rfl (by simp [Phase.relies?])
  | _ => exact hkept.follow halive rfl rfl rfl rfl (by simp [Phase.relies?])

private theorem Kept.exit (hkept : Kept owner s) (hstep : ExitStep owner s s') : Kept owner s' := by
  cases hstep with
  | exit p =>
    have hlive : ∀ q, Function.update s.alive p false q = true → s.alive q = true := by
      intro q hq
      by_cases hqp : q = p
      · simp [hqp] at hq
      · simpa [hqp] using hq
    exact ⟨fun t d h => hkept.relies t d (hlive _ h), fun q d h => hkept.returned q d (hlive q h)⟩
  | reap t hdead =>
    refine ⟨fun u d hlive hu => ?_, hkept.returned⟩
    by_cases hut : u = t
    · subst hut
      rw [State.goto_alive, hdead] at hlive
      cases hlive
    · exact hkept.relies u d hlive (by simpa [hut] using hu)
  | unlock p d lease hdead hheld =>
    -- The leases of live processes stay.
    have hother : ∀ q d', s.alive q = true → s.table q d' ≠ none →
        (s.setTable p d none).table q d' ≠ none := by
      intro q d' hlive hsome
      have hqp : q ≠ p := by
        rintro rfl
        rw [hdead] at hlive
        cases hlive
      simpa [hqp] using hsome
    exact ⟨fun t d h hu => hother _ _ h (hkept.relies t d h hu),
      fun q d h hq => hother _ _ h (hkept.returned q d h hq)⟩

private theorem Kept.step (hkept : Kept owner s) (hstep : CarefulStep owner s s') :
    Kept owner s' := by
  obtain hexit | ⟨t, halive, hcareful, hthread⟩ := hstep
  · exact hkept.exit hexit
  · exact hkept.thread halive hcareful hthread

private theorem CarefulStep.step (hstep : CarefulStep owner s s') : Step owner s s' :=
  hstep.imp id fun ⟨t, halive, _, hthread⟩ => ⟨t, halive, hthread⟩

end Steps

/-- A root directory that nobody uses yet, with whatever has been left there. -/
structure State.Initial (s : State τ π δ) : Prop where
  registrar : s.registrar = none
  sound : s.files.Sound
  table : ∀ p d, s.table p d = none
  returned : ∀ p d, s.returned p d = false
  phase : ∀ t, s.phase t = .idle

private theorem State.Initial.inv {owner : τ → π} {s : State τ π δ} (hinitial : s.Initial) :
    Inv owner s where
  guarded := .of_plain hinitial.sound (fun t => by simp [hinitial.phase t, Phase.stage])
    fun k n i ⟨p, h⟩ => by simp [hinitial.table p k] at h
  registers t := by simp [hinitial.phase t, Phase.registers]
  tables t := by simp [hinitial.phase t, Phase.tables]
  owned p d lease := by simp [hinitial.table p d]
  named t := by simp [hinitial.phase t, Phase.name?]
  unlinking t := by simp [hinitial.phase t]

private theorem State.Initial.kept {owner : τ → π} {s : State τ π δ} (hinitial : s.Initial) :
    Kept owner s where
  relies t d := by simp [hinitial.phase t, Phase.relies?]
  returned p d := by simp [hinitial.returned p d]

variable [DecidableEq τ] [DecidableEq π] [DecidableEq δ]

/-- In every run, nobody has a lease on a digest whose publish lock is about to be removed.
In every run in which all threads are careful, a tree that is about to be renamed away has
been returned to no live process. -/
theorem trees_protected {owner : τ → π} {s : State τ π δ}
    (hreach : Runs.Reachable State.Initial (Step owner) s) :
    (∀ t job, s.phase t = .collecting job .unpublishing → ∀ p, s.table p job.digest = none) ∧
      (Runs.Reachable State.Initial (CarefulStep owner) s →
        ∀ t job, s.phase t = .collecting job .retiring → ∀ p, s.alive p = true →
          s.returned p job.digest = false) := by
  have hinv : Inv owner s := hreach.invariant (fun _ h => h.inv) (fun _ _ h hstep => h.step hstep)
  -- A collector that goes on has found no lease.
  have hnone : ∀ t d, (s.phase t).stage = .probing d [] → ∀ p, s.table p d = none := by
    intro t d hstage p
    by_contra hsome
    obtain ⟨lease, hlease⟩ := Option.ne_none_iff_exists'.mp hsome
    exact hinv.guarded.none_of_probed hstage ⟨p, hlease⟩
  refine ⟨fun t job hphase => hnone t job.digest (by simp [hphase, Phase.stage]),
    fun hcareful => ?_⟩
  have hkept : Kept owner s :=
    hcareful.invariant (fun _ h => h.kept) (fun _ _ h hstep => h.step hstep)
  intro t job hphase p halive
  have htable := hnone t job.digest (by simp [hphase, Phase.stage]) p
  by_contra hreturned
  exact hkept.returned p job.digest halive (by simpa using hreturned) htable

/-- An empty root directory, and two processes of one thread each. -/
def emptyRoot : State Bool Bool Unit where
  alive _ := true
  registrar := none
  mutex _ := none
  table _ _ := none
  files := ⟨fun _ _ => none, fun _ => false, 0⟩
  publish _ := ⟨none, fun _ => none, fun _ => none, 0⟩
  tree _ := false
  returned _ _ := false
  phase _ := .idle

private theorem emptyRoot_initial : emptyRoot.Initial where
  registrar := rfl
  sound := ⟨fun _ _ _ => nofun, fun _ _ _ _ _ => nofun⟩
  table _ _ := rfl
  returned _ _ := rfl
  phase _ := rfl

/-- The root directory after the first process has published a tree: it has a lease. -/
def publishedRoot : State Bool Bool Unit :=
  { emptyRoot with
    table := fun p _ => if p then none else some ⟨(false, 7), 0⟩
    files := (emptyRoot.files.create () (false, 7)).lock 0
    publish := fun _ => (((emptyRoot.publish ()).create false).lock false 0).close false
    tree := fun _ => true
    returned := fun p _ => !p }

private theorem publishedRoot_reachable :
    Runs.Reachable State.Initial (CarefulStep id) publishedRoot := by
  have hstart : Runs.Reachable State.Initial (CarefulStep id) emptyRoot :=
    .start emptyRoot_initial
  have hcalled := hstart.next (.inr ⟨false, rfl, (fun _ h => by cases h), .stabilize _ () rfl⟩)
  have hlooking := hcalled.next
    (.inr ⟨false, rfl, (fun _ h => by cases h), .leasing rfl (.enter _ rfl)⟩)
  have habsent := hlooking.next
    (.inr ⟨false, rfl, (fun _ h => by cases h), .leasing rfl (.absent _ rfl)⟩)
  have hnaming := habsent.next (.inr ⟨false, rfl, (fun _ h => by cases h),
    .leasing rfl (.register _ rfl)⟩)
  have hcreated := hnaming.next (.inr ⟨false, rfl, (fun _ h => by cases h),
    .leasing rfl (.create _ 7 rfl)⟩)
  have hopened := hcreated.next (.inr ⟨false, rfl, (fun _ h => by cases h),
    .leasing rfl (.openFile _ (false, 7) 0 _ (.found rfl))⟩)
  have hlocked := hopened.next (.inr ⟨false, rfl, (fun _ h => by cases h),
    .leasing rfl (.lock _ (false, 7) 0 rfl)⟩)
  have hregistered := hlocked.next (.inr ⟨false, rfl, (fun _ h => by cases h),
    .leasing rfl (.unregister _)⟩)
  have hleased := hregistered.next
    (.inr ⟨false, rfl, (fun _ h => by cases h), .leasing rfl (.leave _)⟩)
  have hwaiting := hleased.next (.inr ⟨false, rfl, (fun _ h => by cases h),
    .publishing rfl (.createLock _ rfl)⟩)
  have hinspecting := hwaiting.next (.inr ⟨false, rfl, (fun _ h => by cases h),
    .publishing rfl (.lock _ 0 rfl)⟩)
  have hcopying := hinspecting.next (.inr ⟨false, rfl, (fun _ h => by cases h),
    .publishing rfl (.missing _ rfl)⟩)
  have hrenamed := hcopying.next (.inr ⟨false, rfl, (fun _ h => by cases h),
    .publishing rfl (.rename _)⟩)
  have hprotected := hrenamed.next (.inr ⟨false, rfl, (fun _ h => by cases h),
    .publishing rfl (.protect _)⟩)
  have hclosed := hprotected.next
    (.inr ⟨false, rfl, (fun _ h => by cases h), .publishing rfl (.close _)⟩)
  have hreturned := hclosed.next (.inr ⟨false, rfl, (fun _ h => by cases h),
    .publishing rfl (.finish _)⟩)
  convert hreturned using 1
  apply State.ext
  case registrar | files => rfl
  case table | returned =>
    funext p d
    cases p <;> rfl
  all_goals
    funext p
    cases p <;> rfl

/-- A process publishes a tree and exits. The other process collects the tree, and removes
the publish lock. -/
theorem trees_protected_exited :
    ∃ s s' : State Bool Bool Unit, Runs.Reachable State.Initial (CarefulStep id) s ∧
      Runs.Reachable State.Initial (CarefulStep id) s' ∧
      s.phase true = .collecting ⟨(), .tree, false⟩ .retiring ∧
      s.returned false () = true ∧ s.returned true () = false ∧
      s'.phase true = .collecting ⟨(), .tree, false⟩ .unpublishing ∧
      ∀ p, s'.table p () = none := by
  have hexited := publishedRoot_reachable.next (.inl (.exit _ false))
  have hunlocked := hexited.next (.inl (.unlock _ false () ⟨(false, 7), 0⟩ rfl rfl))
  have hcollect := hunlocked.next (.inr ⟨true, rfl, (fun _ h => by cases h), .collect _ false rfl⟩)
  have hclaiming := hcollect.next (.inr ⟨true, rfl, (fun _ h => by cases h),
    .selectTree _ () false rfl⟩)
  have hlisting := hclaiming.next (.inr ⟨true, rfl, (fun _ h => by cases h),
    .collecting rfl (.claim _ rfl)⟩)
  -- The file of the lease is still there, but nobody has locked it.
  have hprobing := hlisting.next (.inr ⟨true, rfl, (fun _ h => by cases h),
    .collecting rfl (.list _ [(false, 7)] fun name => by
      simp [LeaseFiles.Disk.create, LeaseFiles.Disk.lock, LeaseFiles.Disk.unlock,
        Function.update_apply, publishedRoot, emptyRoot])⟩)
  have hpruning := hprobing.next (.inr ⟨true, rfl, (fun _ h => by cases h),
    .collecting rfl (.probe _ (false, 7) [] 0 _ (.found rfl) rfl)⟩)
  have hprobed := hpruning.next (.inr ⟨true, rfl, (fun _ h => by cases h),
    .collecting rfl (.prune _ (false, 7) [])⟩)
  have hretiring := hprobed.next (.inr ⟨true, rfl, (fun _ h => by cases h),
    .collecting rfl (.unleased _)⟩)
  have hretired := hretiring.next (.inr ⟨true, rfl, (fun _ h => by cases h),
    .collecting rfl (.retire _ rfl)⟩)
  have hcleared := hretired.next (.inr ⟨true, rfl, (fun _ h => by cases h),
    .collecting rfl (.cleared _)⟩)
  have hsafe := (trees_protected (hretiring.mono fun _ _ => CarefulStep.step)).2 hretiring
  have hfree := (trees_protected (hcleared.mono fun _ _ => CarefulStep.step)).1
  exact ⟨_, _, hretiring, hcleared, rfl, rfl, hsafe true ⟨(), .tree, false⟩ rfl true rfl, rfl,
    hfree true ⟨(), .tree, false⟩ rfl⟩

/-- A process publishes a tree, and then asks for it again. The second call fails to open
the publish lock and releases the lease, and the tree is renamed away under the process. -/
theorem second_call_loses_tree :
    ∃ s : State Bool Bool Unit, Runs.Reachable State.Initial (Step id) s ∧
      s.phase true = .collecting ⟨(), .tree, false⟩ .retiring ∧ s.tree () = true ∧
      s.alive false = true ∧ s.returned false () = true := by
  have hreturned : Runs.Reachable State.Initial (Step id) publishedRoot :=
    publishedRoot_reachable.mono fun _ _ => CarefulStep.step
  -- The second call finds the lease of the first one, fails, and releases it.
  have hcalled' := hreturned.next (.inr ⟨false, rfl, .stabilize _ () rfl⟩)
  have hlooking' := hcalled'.next (.inr ⟨false, rfl, .leasing rfl (.enter _ rfl)⟩)
  have hfound := hlooking'.next (.inr ⟨false, rfl, .leasing rfl (.found _ nofun)⟩)
  have hleased' := hfound.next (.inr ⟨false, rfl, .leasing rfl (.leave _)⟩)
  have hfailed := hleased'.next (.inr ⟨false, rfl, .publishing rfl (.openFails _)⟩)
  have hreleasing := hfailed.next (.inr ⟨false, rfl, .publishing rfl (.closeFailed _)⟩)
  have hremoving := hreleasing.next (.inr ⟨false, rfl, .releasing rfl (.enter _ rfl)⟩)
  have hremoved := hremoving.next (.inr ⟨false, rfl,
    .releasing rfl (.remove _ ⟨(false, 7), 0⟩ rfl)⟩)
  have hunlinked := hremoved.next (.inr ⟨false, rfl, .releasing rfl (.unlink _ (false, 7))⟩)
  have hreleased := hunlinked.next (.inr ⟨false, rfl, .releasing rfl (.leave _)⟩)
  have hcollect := hreleased.next (.inr ⟨true, rfl, .collect _ false rfl⟩)
  have hclaiming := hcollect.next (.inr ⟨true, rfl, .selectTree _ () false rfl⟩)
  have hlisting := hclaiming.next (.inr ⟨true, rfl, .collecting rfl (.claim _ rfl)⟩)
  have hprobing := hlisting.next (.inr ⟨true, rfl, .collecting rfl (.list _ [] fun name => by
    simp [LeaseFiles.Disk.create, LeaseFiles.Disk.lock, LeaseFiles.Disk.unlock,
      LeaseFiles.Disk.unlink, publishedRoot, emptyRoot])⟩)
  have hretiring := hprobing.next (.inr ⟨true, rfl, .collecting rfl (.unleased _)⟩)
  exact ⟨_, hretiring, rfl, rfl, rfl, rfl⟩

end MrBoxington.OutDir
