import MrBoxington.Incremental.Steps

/-!
# Leases protect incremental state

Whoever is about to rename the directory of a checkout or of a unit holds the registrar and
has found that nobody has a lease on the checkout. So a lease on the checkout of a retired
tree was acquired after the tree was retired, whoever deletes it and whenever.
-/

namespace MrBoxington.Incremental

open LeaseFiles (Stage Guarded)

variable {π κ υ : Type}

/-- What a process that probes does to lease files. -/
def ProbePoint.stage (k : κ) : ProbePoint π → Stage κ (π × ℕ)
  | .listing => .plain
  | .probing found rest => .probing k (found ++ rest)
  | .pruning name found rest => .pruning k name (found ++ rest)

/-- What it knows after a step. -/
def Probe.stage (k : κ) : Probe π → Stage κ (π × ℕ)
  | .point next => next.stage k
  | .judged false => .probing k []
  | _ => .plain

/-- What a process does to lease files. -/
def Phase.stage (p : π) : Phase π κ υ → Stage κ (π × ℕ)
  | .acquiring k _ (.opened random inode) => .opened k (p, random) inode
  | .guarding job _ (.probing point) => point.stage job.key
  | .guarding job _ .inspecting => .probing job.key []
  | .guarding job _ .retiring => .probing job.key []
  | .discarding _ (.probing k _ _ point) => point.stage k
  | .discarding _ (.retiring k _ _) => .probing k []
  | _ => .plain

/-- The phases in which a process holds the registrar. -/
def Phase.registers : Phase π κ υ → Bool
  | .acquiring _ _ .waiting => false
  | .acquiring _ _ _ => true
  | .dropping _ _ (.unlocking registered) => registered
  | .dropping _ _ (.unlinking registered) => registered
  | .dropping _ _ (.leaving registered) => registered
  | .guarding _ _ .waiting => false
  | .guarding _ _ _ => true
  | .discarding _ .checking => false
  | .discarding _ .waiting => false
  | .discarding _ _ => true
  | _ => false

/-- A process has a lease, whose file has the process in its name. -/
def State.Leased (s : State π κ υ) (k : κ) (name : π × ℕ) (inode : ℕ) : Prop :=
  ∃ lease, s.leases name.1 k name.2 = some lease ∧ lease.inode = inode

/-- All leases on the checkout of a retired tree were acquired after its retirement. -/
def State.Timely (s : State π κ υ) : Prop :=
  ∀ time tree, s.retired time = some tree → time < s.now ∧
    ∀ p random lease, s.leases p tree.key random = some lease → time < lease.acquired

/-- What every run maintains. -/
structure Inv (s : State π κ υ) : Prop where
  guarded : Guarded s.files s.registrar (fun p => (s.phase p).stage p) s.Leased
  registers : ∀ p, (s.phase p).registers = true → s.registrar = some p
  dropped : ∀ p k random registered,
    s.phase p = .dropping k random (.unlinking registered) → s.leases p k random = none
  timely : s.Timely

private theorem Phase.eq_of_stage_opened {p q : π} {k : κ} {random inode : ℕ} {phase : Phase π κ υ}
    (hstage : phase.stage q = .opened k (p, random) inode) :
    q = p ∧ ∃ purpose, phase = .acquiring k purpose (.opened random inode) := by
  have hprobe : ∀ (k' : κ) (point : ProbePoint π), point.stage k' ≠ .opened k (p, random) inode :=
    fun k' point => by cases point <;> simp [ProbePoint.stage]
  unfold Phase.stage at hstage
  split at hstage
  · obtain ⟨rfl, heq, rfl⟩ := Stage.opened.inj hstage
    obtain ⟨rfl, rfl⟩ := Prod.mk.inj heq
    exact ⟨rfl, _, rfl⟩
  · exact absurd hstage (hprobe _ _)
  · cases hstage
  · cases hstage
  · exact absurd hstage (hprobe _ _)
  · cases hstage
  · cases hstage

section Invariants

variable {p : π} {s s' : State π κ υ}

private theorem State.Timely.shrink (htimely : s.Timely) (hnow : s.now ≤ s'.now)
    (hretired : ∀ time tree, s'.retired time = some tree → s.retired time = some tree)
    (hleases : ∀ q k random lease, s'.leases q k random = some lease →
      s.leases q k random = some lease) : s'.Timely := by
  intro time tree htree
  obtain ⟨hpast, hlater⟩ := htimely time tree (hretired time tree htree)
  exact ⟨Nat.lt_of_lt_of_le hpast hnow, fun q random lease h =>
    hlater q random lease (hleases q tree.key random lease h)⟩

private theorem State.Timely.delete (htimely : s.Timely) (time : ℕ) :
    (s.setRetired time none).Timely := by
  refine htimely.shrink (Nat.le_refl _) (fun time' tree htree => ?_) fun _ _ _ _ h => h
  by_cases htime : time' = time
  · simp [htime] at htree
  · simpa [htime] using htree

private theorem State.Timely.retire (htimely : s.Timely) (tree : Tree κ υ)
    (hfree : ∀ q random lease, s.leases q tree.key random ≠ some lease)
    (hnow : s'.now = s.now + 1) (hleases : s'.leases = s.leases)
    (hretired : s'.retired = Function.update s.retired s.now (some tree)) : s'.Timely := by
  intro time tree' htree
  rw [hretired] at htree
  rw [hnow, hleases]
  by_cases htime : time = s.now
  · subst htime
    obtain rfl : tree = tree' := by simpa using htree
    exact ⟨Nat.lt_succ_self _, fun q random lease h => absurd h (hfree q random lease)⟩
  · obtain ⟨hpast, hlater⟩ := htimely time tree' (by simpa [htime] using htree)
    exact ⟨Nat.lt_succ_of_lt hpast, hlater⟩

/-- Who has probed every name of a key has found no lease on it. -/
theorem Inv.not_leased (hinv : Inv s) {k : κ} (hstage : (s.phase p).stage p = .probing k [])
    (q : π) (random : ℕ) (lease : ActiveLease) : s.leases q k random ≠ some lease := fun h =>
  hinv.guarded.none_of_probed hstage (n := (q, random)) ⟨lease, h, rfl⟩

private theorem Inv.still (hinv : Inv s) (hphase : s'.phase = s.phase) (hfiles : s'.files = s.files)
    (hregistrar : s'.registrar = s.registrar) (hleases : s'.leases = s.leases)
    (htimely : s'.Timely) : Inv s' := by
  have hleased : s'.Leased = s.Leased := by
    unfold State.Leased
    rw [hleases]
  refine ⟨?_, ?_, ?_, htimely⟩
  · rw [hfiles, hregistrar, hphase, hleased]
    exact hinv.guarded
  · rw [hregistrar, hphase]
    exact hinv.registers
  · rw [hphase, hleases]
    exact hinv.dropped

end Invariants

section Steps

variable [DecidableEq π] {p : π} {s s' : State π κ υ} {next : Phase π κ υ}

private theorem stage_goto (hphase : s'.phase = s.phase) (q : π) (hqp : q ≠ p) :
    ((s'.goto p next).phase q).stage q = (s.phase q).stage q := by
  simp [hqp, hphase]

private theorem Inv.goto (hinv : Inv s) (hphase : s'.phase = s.phase)
    (hguarded : Guarded s'.files s'.registrar (fun q => ((s'.goto p next).phase q).stage q)
      s'.Leased)
    (hregistrar : ∀ q, q ≠ p → s.registrar = some q → s'.registrar = some q)
    (hregisters : next.registers = true → s'.registrar = some p)
    (hleases : ∀ q k random, q ≠ p → s'.leases q k random = s.leases q k random)
    (hdropped : ∀ k random registered, next = .dropping k random (.unlinking registered) →
      s'.leases p k random = none)
    (htimely : s'.Timely) : Inv (s'.goto p next) := by
  refine ⟨hguarded, fun q => ?_, fun q => ?_, htimely⟩
  · by_cases hqp : q = p
    · subst hqp
      simpa using hregisters
    · simp only [State.goto_phase, Function.update_of_ne hqp, hphase]
      exact fun h => hregistrar q hqp (hinv.registers q h)
  · by_cases hqp : q = p
    · subst hqp
      simpa using hdropped
    · simp only [State.goto_phase, Function.update_of_ne hqp, hphase]
      intro k random registered h
      exact (hleases q k random hqp).trans (hinv.dropped q k random registered h)

/-- A phase that needs no more than an earlier one. -/
structure Phase.Follows (p : π) (next phase : Phase π κ υ) : Prop where
  stage : next.stage p = .plain ∨ next.stage p = phase.stage p
  registers : next.registers = true → phase.registers = true
  linked : ∀ k random registered, next ≠ .dropping k random (.unlinking registered)

private theorem Inv.follow (hinv : Inv s) (hphase : s'.phase = s.phase)
    (hguarded : Guarded s'.files s.registrar (fun q => (s.phase q).stage q) s.Leased)
    (hregistrar : s'.registrar = s.registrar) (hleases : s'.leases = s.leases)
    (htimely : s'.Timely) (hnext : next.Follows p (s.phase p)) : Inv (s'.goto p next) := by
  have hleased : s'.Leased = s.Leased := by
    unfold State.Leased
    rw [hleases]
  refine hinv.goto hphase ?_ ?_ ?_ ?_ ?_ htimely
  · rw [hregistrar, hleased]
    rcases hnext.stage with hplain | hsame
    · exact hguarded.leave (stage_goto hphase) (by simpa using hplain) fun _ _ h => h
    · refine hguarded.congr p (.inl rfl) (fun q => ?_) fun _ _ _ h => h
      by_cases hqp : q = p
      · subst hqp
        simpa using hsame
      · exact stage_goto hphase q hqp
  · exact fun _ _ h => hregistrar ▸ h
  · exact fun h => hregistrar ▸ hinv.registers p (hnext.registers h)
  · exact fun _ _ _ _ => by rw [hleases]
  · exact fun k random registered h => absurd h (hnext.linked k random registered)

private theorem Inv.register (hinv : Inv s) {holder : Option π}
    (hholder : s.registrar = none ∨ s.registrar = some p)
    (hplain : next.stage p = .plain) (hregisters : next.registers = true → holder = some p)
    (hlinked : ∀ k random registered, next ≠ .dropping k random (.unlinking registered)) :
    Inv ((s.setRegistrar holder).goto p next) := by
  have hothers : ∀ q, q ≠ p → s.registrar = some q → holder = some q := by
    intro q hqp hq
    rcases hholder with hnone | hmine
    · rw [hnone] at hq
      cases hq
    · exact absurd (Option.some.inj (hq.symm.trans hmine)) hqp
  refine hinv.goto rfl ?_ hothers hregisters (fun _ _ _ _ => rfl) ?_ hinv.timely
  · exact hinv.guarded.leave (stage_goto rfl) (by simpa using hplain) hothers
  · exact fun k random registered h => absurd h (hlinked k random registered)

variable [DecidableEq κ]

private theorem ProbeStep.guarded {d d' : LeaseFiles.Disk κ (π × ℕ)} {registrar : Option π}
    {stage stage' : π → Stage κ (π × ℕ)} {lease : κ → π × ℕ → ℕ → Prop} {cleanup : Bool}
    {k : κ} {point : ProbePoint π} {result : Probe π}
    (hprobe : ProbeStep cleanup k point d result d')
    (hguarded : Guarded d registrar stage lease) (hregistrar : registrar = some p)
    (hstage : stage p = point.stage k) (hothers : ∀ q, q ≠ p → stage' q = stage q)
    (hself : stage' p = result.stage k ∨ stage' p = .plain) :
    Guarded d' registrar stage' lease := by
  rcases hself with hself | hplain
  · cases hprobe with
    | list _ names hnames =>
      exact hguarded.list hregistrar hothers (fun n => (hnames n).mpr)
        (by simpa [Probe.stage, ProbePoint.stage] using hself)
    | fail => exact hguarded.leave hothers hself fun _ _ h => h
    | free _ _ name found rest inode hopens hfree =>
      have hopened := hguarded.opens hopens
      have hunlocked : ∀ i, d'.path k name = some i → d'.locked i = false := by
        intro i hpath
        obtain rfl : inode = i := Option.some.inj (hopens.path.symm.trans hpath)
        exact hfree
      -- The leases are in the other files.
      have hother : ∀ m i, lease k m i → m ∈ found ++ rest ∧ m ≠ name := by
        intro m i hlease
        have hne : m ≠ name := by
          rintro rfl
          exact hopened.not_leased hunlocked hlease
        have hmem := hopened.probing p k _ hstage m i hlease
        simp only [List.mem_append, List.mem_cons, hne, false_or] at hmem ⊢
        exact ⟨hmem, hne⟩
      cases cleanup with
      | false =>
        exact hopened.narrow hstage hothers hself fun m i hlease _ => (hother m i hlease).1
      | true =>
        refine hopened.advance hregistrar hothers (by simp [hself, Probe.stage, ProbePoint.stage])
          (by simp [hself, Probe.stage, ProbePoint.stage]) ?_
        rintro k' n rest' hpruning m i hlease
        obtain ⟨rfl, rfl, rfl⟩ := Stage.pruning.inj (hself.symm.trans hpruning)
        exact hother m i hlease
    | skip _ name found rest hnone =>
      refine hguarded.narrow hstage hothers hself fun m i hlease hmem => ?_
      have hne : m ≠ name := by
        rintro rfl
        exact hguarded.not_leased (by simp [hnone]) hlease
      simpa [hne] using hmem
    | held _ _ name found rest inode hopens hlocked =>
      refine (hguarded.opens hopens).narrow hstage hothers hself fun m i _ hmem => ?_
      simp only [List.mem_append, List.mem_cons] at hmem ⊢
      tauto
    | prune _ name found rest =>
      have hunlinked := hguarded.unlink (k := k) (n := name) ?_ ?_
      · exact hunlinked.pruned hstage hothers hself
      · exact fun i hlease => (hguarded.pruning p _ _ _ hstage name i hlease).2 rfl
      · exact hguarded.not_opened (t := p) (by simp [hstage, ProbePoint.stage])
          (by simp [hstage, ProbePoint.stage])
    | pruneFails _ name found rest => exact hguarded.pruned hstage hothers hself
    | judge _ found =>
      cases found with
      | nil => exact hguarded.narrow hstage hothers hself fun _ _ _ hmem => hmem
      | cons name found => exact hguarded.leave hothers hself fun _ _ h => h
  · -- Whatever the step did to files, nothing is made of it.
    cases hprobe with
    | prune _ name found rest =>
      have hunlinked := hguarded.unlink (k := k) (n := name) ?_ ?_
      · exact hunlinked.leave hothers hplain fun _ _ h => h
      · exact fun i hlease => (hguarded.pruning p _ _ _ hstage name i hlease).2 rfl
      · exact hguarded.not_opened (t := p) (by simp [hstage, ProbePoint.stage])
          (by simp [hstage, ProbePoint.stage])
    | free _ _ _ _ _ _ hopens | held _ _ _ _ _ _ hopens =>
      exact (hguarded.opens hopens).leave hothers hplain fun _ _ h => h
    | _ => exact hguarded.leave hothers hplain fun _ _ h => h

private theorem setLease_none {k k' : κ} {q : π} {random random' : ℕ} {lease : ActiveLease}
    (hlease : (s.setLease p k random none).leases q k' random' = some lease) :
    s.leases q k' random' = some lease ∧ ¬(q = p ∧ k' = k ∧ random' = random) := by
  by_cases hq : q = p
  · subst hq
    by_cases hk : k' = k
    · subst hk
      by_cases hr : random' = random
      · simp [hr] at hlease
      · exact ⟨by simpa [hr] using hlease, fun h => hr h.2.2⟩
    · exact ⟨by simpa [hk] using hlease, fun h => hk h.2.1⟩
  · exact ⟨by simpa [hq] using hlease, fun h => hq h.1⟩

private theorem Inv.unlocked (hinv : Inv s) {k : κ} {random : ℕ} {lease : ActiveLease}
    (hheld : s.leases p k random = some lease) :
    Guarded (s.files.unlock lease.inode) s.registrar (fun q => (s.phase q).stage q)
      (s.setLease p k random none).Leased := by
  refine hinv.guarded.drop (k := k) (n := (p, random)) ⟨lease, hheld, rfl⟩ ?_
  rintro k' ⟨q, random'⟩ i ⟨lease', hkept, rfl⟩
  obtain ⟨hold, hother⟩ := setLease_none hkept
  refine ⟨⟨lease', hold, rfl⟩, ?_⟩
  rintro ⟨rfl, heq⟩
  obtain ⟨rfl, rfl⟩ := Prod.mk.inj heq
  exact hother ⟨rfl, rfl, rfl⟩

private theorem Inv.grant (hinv : Inv s) {k : κ} {purpose : Purpose} {random inode : ℕ}
    (hphase : s.phase p = .acquiring k purpose (.opened random inode)) :
    Inv ((((s.setFiles (s.files.lock inode)).setLease p k random
      (some ⟨inode, s.now⟩)).tick).goto p (.acquiring k purpose .leaving)) := by
  -- Only one lease is new.
  have hlease : ∀ q k' random' lease,
      ((s.setLease p k random (some ⟨inode, s.now⟩)).leases q k' random' = some lease) →
      s.leases q k' random' = some lease ∨
        q = p ∧ k' = k ∧ random' = random ∧ lease = ⟨inode, s.now⟩ := by
    intro q k' random' lease h
    by_cases hq : q = p
    · subst hq
      by_cases hk : k' = k
      · subst hk
        by_cases hr : random' = random
        · subst hr
          exact .inr ⟨rfl, rfl, rfl, by simpa using h.symm⟩
        · exact .inl (by simpa [hr] using h)
      · exact .inl (by simpa [hk] using h)
    · exact .inl (by simpa [hq] using h)
  refine hinv.goto rfl ?_ (fun _ _ h => h) (fun _ => ?_) (fun q k' random' hqp => ?_) (by simp) ?_
  · refine hinv.guarded.grant (t := p) (k := k) (n := (p, random)) (by simp [hphase, Phase.stage])
      (stage_goto rfl) (by simp [Phase.stage]) ?_
    rintro k' ⟨q, random'⟩ i ⟨lease, hnew, rfl⟩
    rcases hlease q k' random' lease hnew with hold | ⟨rfl, rfl, rfl, rfl⟩
    · exact .inl ⟨lease, hold, rfl⟩
    · exact .inr ⟨rfl, rfl, rfl⟩
  · exact hinv.registers p (by simp [hphase, Phase.registers])
  · simp [hqp]
  · intro time tree htree
    obtain ⟨hpast, hlater⟩ := hinv.timely time tree htree
    refine ⟨Nat.lt_succ_of_lt hpast, fun q random' lease hnew => ?_⟩
    rcases hlease q tree.key random' lease hnew with hold | ⟨-, -, -, rfl⟩
    · exact hlater q random' lease hold
    · exact hpast

private theorem Inv.acquiring (hinv : Inv s) {k : κ} {purpose : Purpose} {point : AcquirePoint}
    (hphase : s.phase p = .acquiring k purpose point)
    (hstep : AcquireStep p k purpose point s next s') : Inv (s'.goto p next) := by
  have hregistrar : (Phase.acquiring k purpose point : Phase π κ υ).registers = true →
      s.registrar = some p := fun h => hinv.registers p (by simpa [hphase] using h)
  cases hstep with
  | enter _ hfree => exact hinv.register (.inl hfree) rfl (fun _ => rfl) nofun
  | enterFails _ =>
    refine hinv.follow rfl hinv.guarded rfl rfl hinv.timely ?_
    cases purpose <;> constructor <;> simp [Purpose.refused, Phase.stage, Phase.registers]
  | create _ random hnew =>
    refine hinv.follow rfl (hinv.guarded.create hnew) rfl rfl hinv.timely ?_
    rw [hphase]
    constructor <;> simp [Phase.stage, Phase.registers]
  | openFile _ random inode files hopens =>
    refine hinv.goto rfl ?_ (fun _ _ h => h) (fun _ => hregistrar rfl) (fun _ _ _ _ => rfl)
      (by simp) hinv.timely
    exact hinv.guarded.open (hregistrar rfl) (stage_goto rfl) hopens (by simp [Phase.stage])
  | lock _ random inode hfree => exact hinv.grant hphase
  | leave _ =>
    refine hinv.register (.inr (hregistrar rfl)) ?_ ?_ ?_ <;> cases purpose <;>
      simp [Purpose.acquired, Phase.stage, Phase.registers]
  | giveUp _ =>
    refine hinv.register (.inr (hregistrar rfl)) ?_ ?_ ?_ <;> cases purpose <;>
      simp [Purpose.refused, Phase.stage, Phase.registers]
  | _ =>
    refine hinv.follow rfl hinv.guarded rfl rfl hinv.timely ?_
    rw [hphase]
    constructor <;> simp [Phase.stage, Phase.registers]

private theorem Inv.dropping (hinv : Inv s) {k : κ} {random : ℕ} {point : DropPoint}
    (hphase : s.phase p = .dropping k random point)
    (hstep : DropStep p k random point s next s') : Inv (s'.goto p next) := by
  have hregistrar : (Phase.dropping k random point : Phase π κ υ).registers = true →
      s.registrar = some p := fun h => hinv.registers p (by simpa [hphase] using h)
  cases hstep with
  | enter _ hfree => exact hinv.register (.inl hfree) rfl (fun _ => rfl) nofun
  | unlock _ registered lease hheld =>
    refine hinv.goto rfl ?_ (fun _ _ h => h) (fun h => hregistrar h) (fun q k' random' hqp => ?_)
      ?_ ?_
    · exact (hinv.unlocked hheld).leave (stage_goto rfl) (by simp [Phase.stage]) fun _ _ h => h
    · simp [hqp]
    · rintro k' random' registered' heq
      obtain ⟨rfl, rfl, -⟩ := Phase.dropping.inj heq
      simp
    · exact hinv.timely.shrink (Nat.le_refl _) (fun _ _ h => h) fun _ _ _ _ h => (setLease_none h).1
  | unlink _ registered =>
    refine hinv.follow rfl (hinv.guarded.unlink ?_ ?_) rfl rfl hinv.timely ?_
    · -- The process has dropped its lease, and the file is in nobody else's name.
      rintro i ⟨lease, hheld, -⟩
      rw [hinv.dropped p k random registered hphase] at hheld
      cases hheld
    · intro q i hq
      obtain ⟨rfl, purpose, hopened⟩ := Phase.eq_of_stage_opened hq
      rw [hphase] at hopened
      cases hopened
    · rw [hphase]
      constructor <;> simp [Phase.stage, Phase.registers]
  | leave _ registered =>
    cases registered with
    | true => exact hinv.register (.inr (hregistrar rfl)) rfl (by simp [Phase.registers]) nofun
    | false =>
      refine hinv.follow rfl hinv.guarded rfl rfl hinv.timely ?_
      constructor <;> simp [Phase.stage, Phase.registers]
  | _ =>
    refine hinv.follow rfl hinv.guarded rfl rfl hinv.timely ?_
    rw [hphase]
    constructor <;> simp [Phase.stage, Phase.registers]

private theorem Inv.guarding [DecidableEq υ] (hinv : Inv s) {job : Job κ υ} {dryRun : Bool}
    {point next : GuardPoint π}
    (hphase : s.phase p = .guarding job dryRun point)
    (hstep : GuardStep p job dryRun point s next s') :
    Inv (s'.goto p (.guarding job dryRun next)) := by
  have hregistrar : (Phase.guarding job dryRun point).registers = true →
      s.registrar = some p := fun h => hinv.registers p (by simpa [hphase] using h)
  cases hstep with
  | enter _ hfree => exact hinv.register (.inl hfree) rfl (fun _ => rfl) nofun
  | probe _ probePoint result files hprobe =>
    refine hinv.goto rfl ?_ (fun _ _ h => h) (fun _ => hregistrar rfl) (fun _ _ _ _ => rfl)
      (by simp) hinv.timely
    refine hprobe.guarded hinv.guarded (hregistrar rfl) (by simp [hphase, Phase.stage])
      (stage_goto rfl) ?_
    cases result with
    | point next => exact .inl (by simp [GuardPoint.afterProbe, Phase.stage, Probe.stage])
    | failed => exact .inr (by simp [GuardPoint.afterProbe, Phase.stage])
    | judged active =>
      cases active <;> cases dryRun <;>
        simp [GuardPoint.afterProbe, Phase.stage, Probe.stage]
  | retireCheckout _ directory hwhole hthere =>
    have hstage : (s.phase p).stage p = .probing job.key [] := by simp [hphase, Phase.stage]
    refine hinv.follow rfl hinv.guarded rfl rfl
      (hinv.timely.retire (.checkout job.key directory) (hinv.not_leased hstage) rfl rfl
        rfl) ?_
    rw [hphase]
    constructor <;> simp [Phase.stage, Phase.registers]
  | retireUnit _ directory u hjob hthere hunit =>
    have hstage : (s.phase p).stage p = .probing job.key [] := by simp [hphase, Phase.stage]
    refine hinv.follow rfl hinv.guarded rfl rfl
      (hinv.timely.retire (.unit job.key u) (hinv.not_leased hstage) rfl rfl rfl) ?_
    rw [hphase]
    constructor <;> simp [Phase.stage, Phase.registers]
  | restore _ time directory htree hfree =>
    refine hinv.follow rfl hinv.guarded rfl rfl (hinv.timely.delete time) ?_
    rw [hphase]
    constructor <;> simp [Phase.stage, Phase.registers]
  | _ =>
    refine hinv.follow rfl hinv.guarded rfl rfl hinv.timely ?_
    rw [hphase]
    constructor <;> simp [Phase.stage, Phase.registers]

private theorem Inv.discarding (hinv : Inv s) {build : Option κ} {point next : DiscardPoint π κ}
    (hphase : s.phase p = .discarding build point) (hstep : DiscardStep p point s next s') :
    Inv (s'.goto p (.discarding build next)) := by
  have hregistrar : (Phase.discarding build point : Phase π κ υ).registers = true →
      s.registrar = some p := fun h => hinv.registers p (by simpa [hphase] using h)
  cases hstep with
  | enter _ hfree => exact hinv.register (.inl hfree) rfl (fun _ => rfl) nofun
  | probe _ k todo kept probePoint result files hprobe =>
    refine hinv.goto rfl ?_ (fun _ _ h => h) (fun _ => hregistrar rfl) (fun _ _ _ _ => rfl)
      (by simp) hinv.timely
    refine hprobe.guarded hinv.guarded (hregistrar rfl) (by simp [hphase, Phase.stage])
      (stage_goto rfl) ?_
    cases result with
    | point next => exact .inl (by simp [DiscardPoint.afterProbe, Phase.stage, Probe.stage])
    | failed => exact .inr (by simp [DiscardPoint.afterProbe, Phase.stage])
    | judged active =>
      cases active <;> simp [DiscardPoint.afterProbe, Phase.stage, Probe.stage]
  | retire _ k todo kept directory hthere =>
    have hstage : (s.phase p).stage p = .probing k [] := by simp [hphase, Phase.stage]
    refine hinv.follow rfl hinv.guarded rfl rfl
      (hinv.timely.retire (.checkout k directory) (hinv.not_leased hstage) rfl rfl rfl) ?_
    rw [hphase]
    constructor <;> simp [Phase.stage, Phase.registers]
  | restore _ k todo kept time directory htree hfree =>
    refine hinv.follow rfl hinv.guarded rfl rfl (hinv.timely.delete time) ?_
    rw [hphase]
    constructor <;> simp [Phase.stage, Phase.registers]
  | read _ keys _ | write _ keys =>
    refine hinv.follow rfl hinv.guarded rfl rfl hinv.timely ?_
    rw [hphase]
    cases keys <;> constructor <;> simp [DiscardPoint.begin, Phase.stage, Phase.registers]
  | _ =>
    refine hinv.follow rfl hinv.guarded rfl rfl hinv.timely ?_
    rw [hphase]
    constructor <;> simp [Phase.stage, ProbePoint.stage, Phase.registers]

private theorem Inv.process [DecidableEq υ] (hinv : Inv s) (hstep : ProcessStep p s s') :
    Inv s' := by
  cases hstep with
  | acquiring hphase hstep => exact hinv.acquiring hphase hstep
  | dropping hphase hstep => exact hinv.dropping hphase hstep
  | guarding hphase hstep => exact hinv.guarding hphase hstep
  | discarding hphase hstep => exact hinv.discarding hphase hstep
  | create k hphase hnone =>
    refine hinv.follow rfl hinv.guarded rfl rfl
      (hinv.timely.shrink (Nat.le_succ _) (fun _ _ h => h) fun _ _ _ _ h => h) ?_
    constructor <;> simp [Phase.stage, Phase.registers]
  | compile k random directory u hidle hlease hthere =>
    exact hinv.still rfl rfl rfl rfl hinv.timely
  | sweep time hphase => exact hinv.still rfl rfl rfl rfl (hinv.timely.delete time)
  | delete job time hphase =>
    refine hinv.follow rfl hinv.guarded rfl rfl (hinv.timely.delete time) ?_
    cases job <;> constructor <;> simp [Job.done, Phase.stage, Phase.registers]
  | unguard job dryRun retired hphase =>
    have hregistrar := hinv.registers p (by simp [hphase, Phase.registers])
    refine hinv.register (.inr hregistrar) ?_ ?_ ?_ <;> cases retired <;> cases job <;>
      simp [Job.dropped, Job.done, Phase.stage, Phase.registers]
  | discarded build ok hphase =>
    have hregistrar := hinv.registers p (by simp [hphase, Phase.registers])
    refine hinv.register (.inr hregistrar) ?_ ?_ ?_ <;> cases ok <;> cases build <;>
      simp [Incremental.discarded, Phase.stage, Phase.registers]
  | guardFails job dryRun hphase | deleteFails job time hphase =>
    refine hinv.follow rfl hinv.guarded rfl rfl hinv.timely ?_
    cases job <;> constructor <;> simp [Job.done, Phase.stage, Phase.registers]
  | discardReady build hphase hready =>
    refine hinv.follow rfl hinv.guarded rfl rfl hinv.timely ?_
    cases build <;> constructor <;> simp [Incremental.discarded, Phase.stage, Phase.registers]
  | _ =>
    refine hinv.follow rfl hinv.guarded rfl rfl hinv.timely ?_
    constructor <;> simp [Phase.stage, Phase.registers]

private theorem Inv.crash (hinv : Inv s) (hstep : CrashStep s s') : Inv s' := by
  cases hstep with
  | crash p => exact hinv.still rfl rfl rfl rfl hinv.timely
  | reap p hdead =>
    have hothers : ∀ q, q ≠ p → s.registrar = some q →
        (if s.registrar = some p then none else s.registrar) = some q := by
      intro q hqp hq
      rw [if_neg, hq]
      rw [hq]
      exact fun h => hqp (Option.some.inj h)
    refine hinv.goto rfl ?_ hothers (by simp [Phase.registers]) (fun _ _ _ _ => rfl) (by simp)
      hinv.timely
    exact hinv.guarded.leave (stage_goto rfl) (by simp [Phase.stage]) hothers
  | unlock p k random lease hdead hheld =>
    refine ⟨hinv.unlocked hheld, hinv.registers, ?_, ?_⟩
    · intro q k' random' registered hphase
      have hnone := hinv.dropped q k' random' registered hphase
      by_contra hsome
      obtain ⟨lease', hlease⟩ := Option.ne_none_iff_exists'.mp hsome
      rw [(setLease_none hlease).1] at hnone
      cases hnone
    · exact hinv.timely.shrink (Nat.le_refl _) (fun _ _ h => h) fun _ _ _ _ h => (setLease_none h).1

/-- The step lemma: every step keeps the invariant. -/
theorem Inv.step [DecidableEq υ] (hinv : Inv s) (hstep : Step s s') : Inv s' := by
  obtain hcrash | ⟨p, -, hprocess⟩ := hstep
  · exact hinv.crash hcrash
  · exact hinv.process hprocess

end Steps

end MrBoxington.Incremental
