import MrBoxington.Incremental.Protected

/-!
# What is removed is not in use

A step after which the directory of a checkout or of a unit is no longer at its path is
taken while nobody has a lease on the checkout; and all leases on the checkout of a retired
tree are younger than its retirement, until it is deleted.
-/

namespace MrBoxington.Incremental

variable {π κ υ : Type}

/-- The directory of a checkout that was created at a time is at its path. -/
def State.HasCheckout (s : State π κ υ) (k : κ) (born : ℕ) : Prop :=
  ∃ directory, s.checkout k = some directory ∧ directory.born = born

/-- The directory of a unit is at its path. -/
def State.HasUnit (s : State π κ υ) (k : κ) (u : υ) : Prop :=
  ∃ directory, s.checkout k = some directory ∧ directory.units u = true

/-- All directories of a checkout stay at their paths. -/
def State.Keeps (s s' : State π κ υ) (k : κ) : Prop :=
  (∀ born, s.HasCheckout k born → s'.HasCheckout k born) ∧ ∀ u, s.HasUnit k u → s'.HasUnit k u

private theorem State.Keeps.of_eq {s s' : State π κ υ} {k : κ}
    (heq : s'.checkout k = s.checkout k) :
    s.Keeps s' k := by
  constructor
  · rintro born ⟨directory, hthere, hborn⟩
    exact ⟨directory, heq.trans hthere, hborn⟩
  · rintro u ⟨directory, hthere, hunit⟩
    exact ⟨directory, heq.trans hthere, hunit⟩

theorem State.not_hasCheckout {s : State π κ υ} {k : κ} {born : ℕ}
    (hnone : s.checkout k = none) : ¬s.HasCheckout k born := by
  rintro ⟨directory, hthere, -⟩
  rw [hnone] at hthere
  cases hthere

private theorem State.Keeps.of_none {s s' : State π κ υ} {k : κ} (hnone : s.checkout k = none) :
    s.Keeps s' k := by
  constructor
  · exact fun born hthere => absurd hthere (State.not_hasCheckout hnone)
  · rintro u ⟨directory, hthere, -⟩
    rw [hnone] at hthere
    cases hthere

/-- A root directory that nobody uses yet, with whatever has been left there. -/
structure State.Initial (s : State π κ υ) : Prop where
  registrar : s.registrar = none
  sound : s.files.Sound
  leases : ∀ p k random, s.leases p k random = none
  retired : ∀ time tree, s.retired time = some tree → time < s.now
  checkout : ∀ k directory, s.checkout k = some directory → directory.born < s.now
  first : s.first = none
  phase : ∀ p, s.phase p = .idle

theorem State.Initial.inv {s : State π κ υ} (hinitial : s.Initial) : Inv s where
  guarded := .of_plain hinitial.sound (fun p => by simp [hinitial.phase p, Phase.stage])
    fun k name i ⟨lease, h, _⟩ => by simp [hinitial.leases name.1 k name.2] at h
  registers p := by simp [hinitial.phase p, Phase.registers]
  dropped p := by simp [hinitial.phase p]
  timely time tree htree :=
    ⟨hinitial.retired time tree htree, fun p random lease h => by simp [hinitial.leases] at h⟩

variable [DecidableEq κ] {p : π} {s s' : State π κ υ}

private theorem State.keeps_setCheckout {k k' : κ} {directory : Option (Checkout υ)}
    (hkept : k' = k → s.Keeps s' k')
    (hcheckout : s'.checkout = (s.setCheckout k directory).checkout) :
    s.Keeps s' k' := by
  by_cases hk : k' = k
  · exact hkept hk
  · exact .of_eq (by simp [hcheckout, hk])

variable [DecidableEq π]

private theorem AcquireStep.checkout_eq {k : κ} {purpose : Purpose} {point : AcquirePoint}
    {next : Phase π κ υ} (hstep : AcquireStep p k purpose point s next s') :
    s'.checkout = s.checkout := by
  cases hstep <;> rfl

private theorem DropStep.checkout_eq {k : κ} {random : ℕ} {point : DropPoint} {next : Phase π κ υ}
    (hstep : DropStep p k random point s next s') : s'.checkout = s.checkout := by
  cases hstep with
  | leave _ registered => cases registered <;> rfl
  | _ => rfl

private theorem CrashStep.keeps (hstep : CrashStep s s') (k : κ) : s.Keeps s' k := by
  cases hstep <;> exact .of_eq rfl

private theorem DiscardStep.keeps {point next : DiscardPoint π κ}
    (hstep : DiscardStep p point s next s')
    (k : κ) : s.Keeps s' k ∨ ∃ todo kept, point = .retiring k todo kept := by
  cases hstep with
  | retire _ k' todo kept directory hthere =>
    by_cases hk : k = k'
    · exact .inr ⟨todo, kept, by rw [hk]⟩
    · exact .inl (State.keeps_setCheckout (fun h => absurd h hk) rfl)
  | restore _ k' todo kept time directory htree hfree =>
    exact .inl (State.keeps_setCheckout (fun hk => .of_none (hk ▸ hfree)) rfl)
  | _ => exact .inl (.of_eq rfl)

variable [DecidableEq υ]

private theorem GuardStep.keeps {job : Job κ υ} {dryRun : Bool} {point next : GuardPoint π}
    (hstep : GuardStep p job dryRun point s next s') (k : κ) :
    s.Keeps s' k ∨ point = .retiring ∧ k = job.key := by
  by_cases hk : k = job.key
  · cases hstep with
    | retireCheckout | retireUnit => exact .inr ⟨rfl, hk⟩
    | restore _ time directory htree hfree => exact .inl (.of_none (hk ▸ hfree))
    | _ => exact .inl (.of_eq rfl)
  · left
    cases hstep with
    | retireCheckout | retireUnit | restore =>
      exact State.keeps_setCheckout (fun h => absurd h hk) rfl
    | _ => exact .of_eq rfl

private theorem ProcessStep.keeps (hstep : ProcessStep p s s') (k : κ) :
    s.Keeps s' k ∨ (s.phase p).stage p = .probing k [] := by
  cases hstep with
  | acquiring hphase hstep => exact .inl (.of_eq (congrFun hstep.checkout_eq k))
  | dropping hphase hstep => exact .inl (.of_eq (congrFun hstep.checkout_eq k))
  | guarding hphase hstep =>
    rcases hstep.keeps k with hkeeps | ⟨rfl, rfl⟩
    · exact .inl hkeeps
    · exact .inr (by simp [hphase, Phase.stage])
  | discarding hphase hstep =>
    rcases hstep.keeps k with hkeeps | ⟨todo, kept, rfl⟩
    · exact .inl hkeeps
    · exact .inr (by simp [hphase, Phase.stage])
  | create k' hphase hnone =>
    exact .inl (State.keeps_setCheckout (fun hk => .of_none (hk ▸ hnone)) rfl)
  | compile k' random directory u hidle hlease hthere =>
    refine .inl (State.keeps_setCheckout (fun hk => ?_) rfl)
    subst hk
    constructor
    · rintro born ⟨directory', hthere', rfl⟩
      obtain rfl : directory = directory' := Option.some.inj (hthere.symm.trans hthere')
      exact ⟨{ directory with units := Function.update directory.units u true }, by simp, rfl⟩
    · rintro u' ⟨directory', hthere', hunit⟩
      obtain rfl : directory = directory' := Option.some.inj (hthere.symm.trans hthere')
      refine ⟨{ directory with units := Function.update directory.units u true }, by simp, ?_⟩
      by_cases hu : u' = u
      · simp [hu]
      · simpa [hu] using hunit
  | _ => exact .inl (.of_eq rfl)

/-- In every run, whatever step takes the directory of a checkout or of a unit from its path,
nobody has a lease on the checkout; and all leases on the checkout of a tree that has been
retired, and that may be deleted, were acquired after its retirement. -/
theorem state_protected {s s' : State π κ υ} (hreach : Runs.Reachable State.Initial Step s)
    (hstep : Step s s') :
    (∀ k born, s.HasCheckout k born → ¬s'.HasCheckout k born →
        ∀ q random, s.leases q k random = none) ∧
      (∀ k u, s.HasUnit k u → ¬s'.HasUnit k u → ∀ q random, s.leases q k random = none) ∧
      ∀ time tree, s.retired time = some tree →
        ∀ q random lease, s.leases q tree.key random = some lease → time < lease.acquired := by
  have hinv : Inv s := hreach.invariant (fun _ h => h.inv) (fun _ _ h hstep => h.step hstep)
  -- A step that does not keep the directories of a checkout is taken after a probe.
  have hfree : ∀ k, ¬s.Keeps s' k → ∀ q random, s.leases q k random = none := by
    intro k hlost q random
    obtain hcrash | ⟨p, -, hprocess⟩ := hstep
    · exact absurd (hcrash.keeps k) hlost
    · have hstage := (hprocess.keeps k).resolve_left hlost
      by_contra hsome
      obtain ⟨lease, hlease⟩ := Option.ne_none_iff_exists'.mp hsome
      exact hinv.not_leased hstage q random lease hlease
  exact ⟨fun k born hthere hgone => hfree k fun hkeeps => hgone (hkeeps.1 born hthere),
    fun k u hthere hgone => hfree k fun hkeeps => hgone (hkeeps.2 u hthere),
    fun time tree htree => (hinv.timely time tree htree).2⟩

/-- Two checkouts with one unit each, and two idle processes. -/
def twoCheckouts : State Bool Bool Unit where
  alive _ := true
  registrar := none
  files := ⟨fun _ _ => none, fun _ => false, 0⟩
  leases _ _ _ := none
  checkout _ := some ⟨0, fun _ => true⟩
  retired _ := none
  epoch := none
  first := none
  now := 1
  phase _ := .idle

private theorem twoCheckouts_initial : twoCheckouts.Initial where
  registrar := rfl
  sound := ⟨fun _ _ _ => nofun, fun _ _ _ _ _ => nofun⟩
  leases _ _ _ := rfl
  retired _ _ := nofun
  checkout k directory hthere := by
    obtain rfl := Option.some.inj hthere
    exact Nat.one_pos
  first := rfl
  phase _ := rfl

/-- A process has a lease on one checkout, and the other process removes the other one. -/
theorem state_protected_removed :
    ∃ s s' : State Bool Bool Unit, Runs.Reachable State.Initial Step s ∧ Step s s' ∧
      s.leases false false 7 ≠ none ∧ s.HasCheckout true 0 ∧ ¬s'.HasCheckout true 0 ∧
      ∀ q random, s.leases q true random = none := by
  have hstart : Runs.Reachable State.Initial Step twoCheckouts := .start twoCheckouts_initial
  have hwaiting := hstart.next (.inr ⟨false, rfl, .acquire _ false rfl⟩)
  have hnaming := hwaiting.next (.inr ⟨false, rfl, .acquiring rfl (.enter _ rfl)⟩)
  have hcreated := hnaming.next (.inr ⟨false, rfl, .acquiring rfl (.create _ 7 rfl)⟩)
  have hopened := hcreated.next (.inr ⟨false, rfl,
    .acquiring rfl (.openFile _ 7 0 _ (.found rfl))⟩)
  have hlocked := hopened.next (.inr ⟨false, rfl, .acquiring rfl (.lock _ 7 0 rfl)⟩)
  have hleased := hlocked.next (.inr ⟨false, rfl, .acquiring rfl (.leave _)⟩)
  have hguard := hleased.next (.inr ⟨true, rfl, .guard _ (.workspace true) false rfl⟩)
  have hlisting := hguard.next (.inr ⟨true, rfl, .guarding rfl (.enter _ rfl)⟩)
  -- There is no lease file of this checkout.
  have hprobing := hlisting.next (.inr ⟨true, rfl, .guarding rfl (.probe _ _ _ _
    (.list _ [] fun name => by
      simp [LeaseFiles.Disk.create, LeaseFiles.Disk.lock, twoCheckouts, Job.key]))⟩)
  have hjudged := hprobing.next (.inr ⟨true, rfl, .guarding rfl (.probe _ _ _ _
    (.judge _ []))⟩)
  have hretiring := hjudged.next (.inr ⟨true, rfl, .guarding rfl (.inspect _ trivial)⟩)
  have hsafe := state_protected hretiring (.inr ⟨true, rfl,
    .guarding rfl (.retireCheckout _ ⟨0, fun _ => true⟩ rfl rfl)⟩)
  exact ⟨_, _, hretiring, .inr ⟨true, rfl,
    .guarding rfl (.retireCheckout _ ⟨0, fun _ => true⟩ rfl rfl)⟩, by decide, ⟨_, rfl, rfl⟩,
    State.not_hasCheckout rfl, hsafe.1 true 0 ⟨_, rfl, rfl⟩ (State.not_hasCheckout rfl)⟩

end MrBoxington.Incremental
