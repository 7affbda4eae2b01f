import MrBoxington.OutDir.Stabilize

/-!
# The leases of processes

Leases are in the tables of live processes, each with a locked file that nobody removes;
and a collector that is about to retire a tree, or to remove a publish lock, has found
that nobody holds a lease on it.
-/

namespace MrBoxington.OutDir

open LeaseFiles (Stage Guarded)

variable {τ π δ : Type}

/-- The points at which `lease` holds the registrar. -/
def LeasePoint.registers : LeasePoint π → Bool
  | .naming | .created _ | .opened _ _ | .registered | .failing => true
  | _ => false

/-- The points at which a collector holds the registrar. -/
def CollectPoint.registers : CollectPoint π → Bool
  | .claiming => false
  | _ => true

/-- The phases in which a thread holds the registrar. -/
def Phase.registers : Phase π δ → Bool
  | .leasing _ point => point.registers
  | .collecting _ point => point.registers
  | _ => false

/-- The phases in which a thread holds the table of its process. -/
def Phase.tables : Phase π δ → Bool
  | .leasing _ .requesting => false
  | .leasing _ _ => true
  | .releasing _ .waiting => false
  | .releasing _ _ => true
  | _ => false

/-- What a thread does to lease files. -/
def Phase.stage : Phase π δ → Stage δ (π × ℕ)
  | .leasing d (.opened name inode) => .opened d name inode
  | .collecting job (.probing rest) => .probing job.digest rest
  | .collecting job (.pruning name rest) => .pruning job.digest name rest
  | .collecting job .retiring => .probing job.digest []
  | .collecting job .clearing => .probing job.digest []
  | .collecting job .unpublishing => .probing job.digest []
  | _ => .plain

/-- The name of a file that a thread of the same process is going to use. -/
def Phase.name? : Phase π δ → Option (π × ℕ)
  | .leasing _ (.created name) => some name
  | .leasing _ (.opened name _) => some name
  | .releasing _ (.unlinking name) => some name
  | _ => none

/-- A lease is in the table of a process. -/
def State.Leased (s : State τ π δ) (d : δ) (name : π × ℕ) (inode : ℕ) : Prop :=
  ∃ p, s.table p d = some ⟨name, inode⟩

/-- What every run maintains. -/
structure Inv (owner : τ → π) (s : State τ π δ) : Prop where
  guarded : Guarded s.files s.registrar (fun t => (s.phase t).stage) s.Leased
  registers : ∀ t, (s.phase t).registers = true → s.registrar = some t
  tables : ∀ t, (s.phase t).tables = true → s.mutex (owner t) = some t
  owned : ∀ p d lease, s.table p d = some lease → lease.name.1 = p
  named : ∀ t name, (s.phase t).name? = some name → name.1 = owner t
  unlinking : ∀ t d name, s.phase t = .releasing d (.unlinking name) →
    s.table (owner t) d = none

private theorem Phase.tables_of_name? {phase : Phase π δ} {name : π × ℕ}
    (hname : phase.name? = some name) : phase.tables = true := by
  unfold Phase.name? at hname
  split at hname <;> simp_all [tables]

private theorem Phase.name?_of_stage {phase : Phase π δ} {d : δ} {name : π × ℕ} {inode : ℕ}
    (hstage : phase.stage = .opened d name inode) : phase.name? = some name := by
  unfold Phase.stage at hstage
  split at hstage <;> simp_all [name?]

/-- The parts of the invariant that a step of the thread `t` has to keep. -/
structure Keeps (owner : τ → π) (t : τ) (s s' : State τ π δ) : Prop where
  phase : ∀ u, u ≠ t → s'.phase u = s.phase u
  registrar : ∀ u, u ≠ t → s.registrar = some u → s'.registrar = some u
  registers : (s'.phase t).registers = true → s'.registrar = some t
  mutex : ∀ u, u ≠ t → s.mutex (owner u) = some u → s'.mutex (owner u) = some u
  tables : (s'.phase t).tables = true → s'.mutex (owner t) = some t
  named : ∀ name, (s'.phase t).name? = some name → name.1 = owner t

/-- A step of a thread. A thread puts a lease in the table of its process only while it
holds the table. -/
theorem Inv.of_keeps {owner : τ → π} {t : τ} {s s' : State τ π δ} (hinv : Inv owner s)
    (hkeeps : Keeps owner t s s')
    (hguarded : Guarded s'.files s'.registrar (fun t => (s'.phase t).stage) s'.Leased)
    (htable : ∀ p d lease, s'.table p d = some lease → s.table p d = some lease ∨
      p = owner t ∧ lease.name.1 = p ∧ (s.phase t).tables = true)
    (hunlinking : ∀ d name, s'.phase t = .releasing d (.unlinking name) →
      s'.table (owner t) d = none) : Inv owner s' := by
  refine ⟨hguarded, fun u => ?_, fun u => ?_, fun p d lease h => ?_, fun u => ?_, fun u => ?_⟩
  · by_cases hut : u = t
    · exact hut ▸ hkeeps.registers
    · rw [hkeeps.phase u hut]
      exact fun h => hkeeps.registrar u hut (hinv.registers u h)
  · by_cases hut : u = t
    · exact hut ▸ hkeeps.tables
    · rw [hkeeps.phase u hut]
      exact fun h => hkeeps.mutex u hut (hinv.tables u h)
  · rcases htable p d lease h with hold | ⟨-, hname, -⟩
    · exact hinv.owned p d lease hold
    · exact hname
  · by_cases hut : u = t
    · exact hut ▸ hkeeps.named
    · rw [hkeeps.phase u hut]
      exact hinv.named u
  · by_cases hut : u = t
    · exact hut ▸ hunlinking
    · rw [hkeeps.phase u hut]
      intro d name hphase
      have hnone := hinv.unlinking u d name hphase
      by_contra hsome
      obtain ⟨lease, hlease⟩ := Option.ne_none_iff_exists'.mp hsome
      rcases htable _ _ _ hlease with hold | ⟨hproc, -, htables⟩
      · rw [hold] at hnone
        cases hnone
      · -- Both threads would hold the table of one process.
        have hu := hinv.tables u (by simp [hphase, Phase.tables])
        have ht := hinv.tables t htables
        rw [hproc, ht] at hu
        exact hut (Option.some.inj hu).symm

section Steps

variable [DecidableEq τ] {owner : τ → π} {t : τ} {s s' : State τ π δ} {next : Phase π δ}

private theorem Inv.goto (hinv : Inv owner s) (hphase : s'.phase = s.phase)
    (hguarded : Guarded s'.files s'.registrar (fun u => ((s'.goto t next).phase u).stage)
      s'.Leased)
    (hregistrar : ∀ u, u ≠ t → s.registrar = some u → s'.registrar = some u)
    (hregisters : next.registers = true → s'.registrar = some t)
    (hmutex : ∀ u, u ≠ t → s.mutex (owner u) = some u → s'.mutex (owner u) = some u)
    (htables : next.tables = true → s'.mutex (owner t) = some t)
    (hnamed : ∀ name, next.name? = some name → name.1 = owner t)
    (htable : ∀ p d lease, s'.table p d = some lease → s.table p d = some lease ∨
      p = owner t ∧ lease.name.1 = p ∧ (s.phase t).tables = true)
    (hunlinking : ∀ d name, next = .releasing d (.unlinking name) →
      s'.table (owner t) d = none) : Inv owner (s'.goto t next) := by
  refine hinv.of_keeps (t := t) ⟨fun u hut => ?_, hregistrar, ?_, hmutex, ?_, ?_⟩ hguarded htable ?_
  · simp [hut, hphase]
  · simpa using hregisters
  · simpa using htables
  · simpa using hnamed
  · simpa using hunlinking

/-- A phase that needs no more than an earlier one. -/
structure Phase.Follows (next phase : Phase π δ) : Prop where
  stage : next.stage = .plain ∨ next.stage = phase.stage
  registers : next.registers = true → phase.registers = true
  tables : next.tables = true → phase.tables = true
  linked : ∀ d name, next ≠ .releasing d (.unlinking name)

private theorem stage_goto (hphase : s'.phase = s.phase) (u : τ) (hut : u ≠ t) :
    ((s'.goto t next).phase u).stage = (s.phase u).stage := by
  simp [hut, hphase]

private theorem Inv.follow (hinv : Inv owner s) (hphase : s'.phase = s.phase)
    (hguarded : Guarded s'.files s.registrar (fun u => (s.phase u).stage) s.Leased)
    (hregistrar : s'.registrar = s.registrar) (hmutex : s'.mutex = s.mutex)
    (htable : s'.table = s.table) (hnext : next.Follows (s.phase t))
    (hnamed : ∀ name, next.name? = some name → name.1 = owner t) :
    Inv owner (s'.goto t next) := by
  have hleased : s'.Leased = s.Leased := by
    unfold State.Leased
    rw [htable]
  refine hinv.goto hphase ?_ ?_ ?_ ?_ ?_ hnamed ?_ ?_
  · rw [hregistrar, hleased]
    rcases hnext.stage with hplain | hsame
    · exact hguarded.leave (stage_goto hphase) (by simpa using hplain) fun _ _ h => h
    · refine hguarded.congr t (.inl rfl) (fun u => ?_) fun _ _ _ h => h
      by_cases hut : u = t
      · subst hut
        simpa using hsame
      · exact stage_goto hphase u hut
  · exact fun _ _ h => hregistrar ▸ h
  · exact fun h => hregistrar ▸ hinv.registers t (hnext.registers h)
  · exact fun _ _ h => hmutex ▸ h
  · exact fun h => hmutex ▸ hinv.tables t (hnext.tables h)
  · exact fun _ _ _ h => .inl (htable ▸ h)
  · exact fun d name h => absurd h (hnext.linked d name)

private theorem Inv.register (hinv : Inv owner s) {holder : Option τ}
    (hholder : s.registrar = none ∨ s.registrar = some t)
    (hplain : next.stage = .plain) (hregisters : next.registers = true → holder = some t)
    (htables : next.tables = true → (s.phase t).tables = true)
    (hnamed : next.name? = none) : Inv owner ((s.setRegistrar holder).goto t next) := by
  have hothers : ∀ u, u ≠ t → s.registrar = some u → holder = some u := by
    intro u hut hu
    rcases hholder with hnone | hmine
    · rw [hnone] at hu
      cases hu
    · exact absurd (Option.some.inj (hu.symm.trans hmine)) hut
  refine hinv.goto rfl ?_ hothers hregisters (fun _ _ h => h) ?_ ?_ (fun _ _ _ h => .inl h) ?_
  · exact hinv.guarded.leave (stage_goto rfl) (by simpa using hplain) hothers
  · exact fun h => hinv.tables t (htables h)
  · simp [hnamed]
  · rintro d name rfl
    cases hnamed

private theorem Inv.enter [DecidableEq π] (hinv : Inv owner s) {holder : Option τ}
    (hholder : s.mutex (owner t) = none ∨ s.mutex (owner t) = some t)
    (hplain : next.stage = .plain) (hregisters : next.registers = false)
    (htables : next.tables = true → holder = some t) (hnamed : next.name? = none) :
    Inv owner ((s.setMutex (owner t) holder).goto t next) := by
  have hothers : ∀ u, u ≠ t → s.mutex (owner u) = some u →
      (s.setMutex (owner t) holder).mutex (owner u) = some u := by
    intro u hut hu
    by_cases hproc : owner u = owner t
    · rw [hproc] at hu
      rcases hholder with hnone | hmine
      · rw [hnone] at hu
        cases hu
      · exact absurd (Option.some.inj (hu.symm.trans hmine)) hut
    · simpa [hproc] using hu
  refine hinv.goto rfl ?_ (fun _ _ h => h) ?_ hothers ?_ ?_ (fun _ _ _ h => .inl h) ?_
  · exact hinv.guarded.leave (stage_goto rfl) (by simpa using hplain) fun _ _ h => h
  · simp [hregisters]
  · intro h
    simpa using htables h
  · simp [hnamed]
  · rintro d name rfl
    cases hnamed

section Leasing

variable [DecidableEq π] [DecidableEq δ] {d : δ}

private theorem Inv.grant (hinv : Inv owner s) {name : π × ℕ} {inode : ℕ}
    (hphase : s.phase t = .leasing d (.opened name inode)) :
    Inv owner (((s.setFiles (s.files.lock inode)).setTable (owner t) d
      (some ⟨name, inode⟩)).goto t (.leasing d .registered)) := by
  have hname : name.1 = owner t := hinv.named t name (by simp [hphase, Phase.name?])
  have htables : (s.phase t).tables = true := by simp [hphase, Phase.tables]
  -- Only one entry of the table changes.
  have htable : ∀ p d' lease,
      ((s.setFiles (s.files.lock inode)).setTable (owner t) d (some ⟨name, inode⟩)).table p d' =
        some lease →
      s.table p d' = some lease ∨ p = owner t ∧ d' = d ∧ lease = ⟨name, inode⟩ := by
    intro p d' lease h
    by_cases hp : p = owner t
    · subst hp
      by_cases hd : d' = d
      · subst hd
        exact .inr ⟨rfl, rfl, by simpa using h.symm⟩
      · exact .inl (by simpa [hd] using h)
    · exact .inl (by simpa [hp] using h)
  refine hinv.goto rfl ?_ (fun _ _ h => h) (fun _ => ?_) (fun _ _ h => h) (fun _ => ?_) ?_ ?_ ?_
  · refine hinv.guarded.grant (t := t) (k := d) (n := name) ?_ (stage_goto rfl)
      (by simp [Phase.stage]) ?_
    · simp [hphase, Phase.stage]
    · rintro k n i ⟨p, hlease⟩
      rcases htable p k ⟨n, i⟩ hlease with hold | ⟨-, rfl, heq⟩
      · exact .inl ⟨p, hold⟩
      · obtain ⟨rfl, rfl⟩ := Lease.mk.inj heq
        exact .inr ⟨rfl, rfl, rfl⟩
  · exact hinv.registers t (by simp [hphase, Phase.registers, LeasePoint.registers])
  · exact hinv.tables t htables
  · simp [Phase.name?]
  · intro p d' lease h
    rcases htable p d' lease h with hold | ⟨rfl, -, rfl⟩
    · exact .inl hold
    · exact .inr ⟨rfl, hname, htables⟩
  · simp

private theorem Inv.leasing (hinv : Inv owner s) {point : LeasePoint π}
    (hphase : s.phase t = .leasing d point) (hstep : LeaseStep (owner t) t d point s next s') :
    Inv owner (s'.goto t next) := by
  have hregistrar : point.registers = true → s.registrar = some t := fun h =>
    hinv.registers t (by simpa [hphase, Phase.registers] using h)
  have hmutex : (Phase.leasing d point : Phase π δ).tables = true → s.mutex (owner t) = some t :=
    fun h => hinv.tables t (by simpa [hphase] using h)
  cases hstep with
  | enter _ hfree => exact hinv.enter (.inl hfree) rfl rfl (fun _ => rfl) rfl
  | register _ hfree =>
    exact hinv.register (.inl hfree) rfl (fun _ => rfl) (by simp [hphase, Phase.tables]) rfl
  | create _ random hnew =>
    refine hinv.follow rfl (hinv.guarded.create hnew) rfl rfl rfl ?_ (by simp [Phase.name?])
    rw [hphase]
    constructor <;> simp [Phase.stage, Phase.registers, LeasePoint.registers, Phase.tables]
  | openFile _ name inode files hopens =>
    refine hinv.goto rfl ?_ (fun _ _ h => h) (fun _ => hregistrar rfl) (fun _ _ h => h)
      (fun _ => hmutex rfl) ?_ (fun _ _ _ h => .inl h) (by simp)
    · exact hinv.guarded.open (hregistrar rfl) (stage_goto rfl) hopens (by simp [Phase.stage])
    · intro name' hname
      exact hinv.named t name' (by simpa [hphase, Phase.name?] using hname)
  | lock _ name inode hfree => exact hinv.grant hphase
  | unregister _ =>
    exact hinv.register (.inr (hregistrar rfl)) rfl
      (by simp [Phase.registers, LeasePoint.registers])
      (by simp [hphase, Phase.tables]) rfl
  | giveUp _ =>
    exact hinv.register (.inr (hregistrar rfl)) rfl
      (by simp [Phase.registers, LeasePoint.registers])
      (by simp [hphase, Phase.tables]) rfl
  | leave _ => exact hinv.enter (.inr (hmutex rfl)) rfl rfl (by simp [Phase.tables]) rfl
  | refuse _ => exact hinv.enter (.inr (hmutex rfl)) rfl rfl (by simp [Phase.tables]) rfl
  | _ =>
    refine hinv.follow rfl hinv.guarded rfl rfl rfl ?_ (by simp [Phase.name?])
    rw [hphase]
    constructor <;> simp [Phase.stage, Phase.registers, LeasePoint.registers, Phase.tables]

private theorem Inv.publishing (hinv : Inv owner s) {point : PublishPoint}
    (hphase : s.phase t = .publishing d point)
    (hstep : PublishStep (owner t) t d point s next s') : Inv owner (s'.goto t next) := by
  cases hstep <;> refine hinv.follow rfl hinv.guarded rfl rfl rfl ?_ (by simp [Phase.name?]) <;>
    constructor <;> simp [Phase.stage, Phase.registers, Phase.tables]

omit [DecidableEq τ] in
private theorem Inv.unleased (hinv : Inv owner s) {p : π} {lease : Lease π}
    (hheld : s.table p d = some lease) :
    Guarded (s.files.unlock lease.inode) s.registrar (fun u => (s.phase u).stage)
      (s.setTable p d none).Leased := by
  refine hinv.guarded.drop (k := d) (n := lease.name) ⟨p, hheld⟩ ?_
  rintro k n i ⟨q, hlease⟩
  by_cases hq : q = p
  · subst hq
    by_cases hk : k = d
    · simp [hk] at hlease
    · exact ⟨⟨q, by simpa [hk] using hlease⟩, fun h => hk h.1⟩
  · have hold : s.table q k = some ⟨n, i⟩ := by simpa [hq] using hlease
    refine ⟨⟨q, hold⟩, ?_⟩
    rintro ⟨rfl, rfl⟩
    have hname : lease.name.1 = q := hinv.owned q k ⟨lease.name, i⟩ hold
    exact hq (hname.symm.trans (hinv.owned p k lease hheld))

omit [DecidableEq τ] in
private theorem setTable_none {p q : π} {d' : δ} {lease : Lease π}
    (hlease : (s.setTable p d none).table q d' = some lease) : s.table q d' = some lease := by
  by_cases hq : q = p
  · subst hq
    by_cases hd : d' = d
    · simp [hd] at hlease
    · simpa [hd] using hlease
  · simpa [hq] using hlease

private theorem Inv.releasing (hinv : Inv owner s) {point : ReleasePoint π}
    (hphase : s.phase t = .releasing d point)
    (hstep : ReleaseStep (owner t) t d point s next s') : Inv owner (s'.goto t next) := by
  have hmutex : (Phase.releasing d point : Phase π δ).tables = true →
      s.mutex (owner t) = some t := fun h => hinv.tables t (by simpa [hphase] using h)
  cases hstep with
  | enter _ hfree => exact hinv.enter (.inl hfree) rfl rfl (fun _ => rfl) rfl
  | leave _ => exact hinv.enter (.inr (hmutex rfl)) rfl rfl (by simp [Phase.tables]) rfl
  | remove _ lease hheld =>
    refine hinv.goto rfl ?_ (fun _ _ h => h) (by simp [Phase.registers]) (fun _ _ h => h)
      (fun _ => hmutex rfl) ?_ (fun _ _ _ h => .inl (setTable_none h)) ?_
    · exact (hinv.unleased hheld).leave (stage_goto rfl) (by simp [Phase.stage]) fun _ _ h => h
    · intro name hname
      obtain rfl : lease.name = name := by simpa [Phase.name?] using hname
      exact hinv.owned _ _ _ hheld
    · rintro d' name heq
      obtain ⟨rfl, -⟩ := Phase.releasing.inj heq
      simp
  | unlink _ name =>
    have hname : name.1 = owner t := hinv.named t name (by simp [hphase, Phase.name?])
    refine hinv.follow rfl (hinv.guarded.unlink ?_ ?_) rfl rfl rfl ?_ (by simp [Phase.name?])
    · -- The process has no lease, and no other process has this file.
      rintro i ⟨p, hlease⟩
      have hp : p = owner t := (hinv.owned p d _ hlease).symm.trans hname
      rw [hp, hinv.unlinking t d name hphase] at hlease
      cases hlease
    · -- Another thread that had opened it would hold the table of the process.
      intro u i hu
      have huname := Phase.name?_of_stage hu
      have hproc : owner u = owner t := (hinv.named u name huname).symm.trans hname
      have hutables := hinv.tables u (Phase.tables_of_name? huname)
      rw [hproc, hmutex rfl] at hutables
      obtain rfl : t = u := Option.some.inj hutables
      simp [hphase, Phase.stage] at hu
    · rw [hphase]
      constructor <;> simp [Phase.stage, Phase.registers, Phase.tables]
  | _ =>
    refine hinv.follow rfl hinv.guarded rfl rfl rfl ?_ (by simp [Phase.name?])
    rw [hphase]
    constructor <;> simp [Phase.stage, Phase.registers, Phase.tables]

end Leasing

section Collecting

variable [DecidableEq π] [DecidableEq δ]

private theorem Inv.collecting (hinv : Inv owner s) {job : Job δ} {point next : CollectPoint π}
    (hphase : s.phase t = .collecting job point) (hstep : CollectStep t job point s next s') :
    Inv owner (s'.goto t (.collecting job next)) := by
  have hregistrar : point.registers = true → s.registrar = some t := fun h =>
    hinv.registers t (by simpa [hphase, Phase.registers] using h)
  -- A step that goes on to another stage.
  have hadvance : ∀ {files : LeaseFiles.Disk δ (π × ℕ)} {next : CollectPoint π},
      point.registers = true →
      Guarded files s.registrar
        (fun u => (((s.setFiles files).goto t (.collecting job next)).phase u).stage) s.Leased →
      Inv owner ((s.setFiles files).goto t (.collecting job next)) := by
    intro files next hholds hguarded
    exact hinv.goto rfl hguarded (fun _ _ h => h) (fun _ => hregistrar hholds) (fun _ _ h => h)
      (by simp [Phase.tables]) (by simp [Phase.name?]) (fun _ _ _ h => .inl h) (by simp)
  have hkeep : ∀ {next : CollectPoint π}, point.registers = true →
      Guarded s.files s.registrar
        (fun u => ((s.goto t (.collecting job next)).phase u).stage) s.Leased →
      Inv owner (s.goto t (.collecting job next)) := @fun next => hadvance
  cases hstep with
  | claim _ hfree =>
    exact hinv.register (.inl hfree) rfl (fun _ => rfl) (by simp [Phase.tables]) rfl
  | list _ names hnames =>
    refine hkeep rfl ?_
    exact hinv.guarded.list (hregistrar rfl) (stage_goto rfl) (fun n => (hnames n).mpr)
      (by simp [Phase.stage])
  | probe _ name rest inode files hopens hfree =>
    have hstage : (s.phase t).stage = .probing job.digest (name :: rest) := by
      simp [hphase, Phase.stage]
    refine hadvance rfl ((hinv.guarded.opens hopens).probe hstage (stage_goto rfl) ?_ ?_)
    · intro i hpath
      obtain rfl : inode = i := Option.some.inj (hopens.path.symm.trans hpath)
      exact hfree
    · cases job.dryRun <;> simp [Phase.stage]
  | skip _ name rest hnone =>
    have hstage : (s.phase t).stage = .probing job.digest (name :: rest) := by
      simp [hphase, Phase.stage]
    refine hkeep rfl (hinv.guarded.probe hstage (stage_goto rfl) (by simp [hnone]) (.inl ?_))
    simp [Phase.stage]
  | held _ name rest inode files hopens hlocked =>
    refine hadvance rfl ((hinv.guarded.opens hopens).leave (stage_goto rfl)
      (by simp [Phase.stage]) fun _ _ h => h)
  | prune _ name rest =>
    have hstage : (s.phase t).stage = .pruning job.digest name rest := by
      simp [hphase, Phase.stage]
    have hunlinked := hinv.guarded.unlink (k := job.digest) (n := name) ?_ ?_
    · exact hadvance rfl (hunlinked.pruned hstage (stage_goto rfl) (by simp [Phase.stage]))
    · exact fun i hlease => (hinv.guarded.pruning t _ _ _ hstage name i hlease).2 rfl
    · exact hinv.guarded.not_opened (t := t) (by simp [hstage]) (by simp [hstage])
  | pruneFails _ name rest =>
    have hstage : (s.phase t).stage = .pruning job.digest name rest := by
      simp [hphase, Phase.stage]
    exact hkeep rfl (hinv.guarded.pruned hstage (stage_goto rfl) (by simp [Phase.stage]))
  | clear _ name =>
    have hstage : (s.phase t).stage = .probing job.digest [] := by simp [hphase, Phase.stage]
    refine hinv.follow rfl (hinv.guarded.unlink ?_ ?_) rfl rfl rfl ?_ (by simp [Phase.name?])
    · exact fun i => hinv.guarded.none_of_probed hstage
    · exact hinv.guarded.not_opened (t := t) (by simp [hstage]) (by simp [hstage])
    · rw [hphase]
      constructor <;> simp [Phase.registers, Phase.tables]
  | unleased _ =>
    refine hinv.follow rfl hinv.guarded rfl rfl rfl ?_ (by simp [Phase.name?])
    rw [hphase]
    obtain ⟨d, kind, dryRun⟩ := job
    cases dryRun <;> cases kind <;> constructor <;>
      simp [Phase.stage, Job.unleased, Phase.registers, CollectPoint.registers, Phase.tables]
  | _ =>
    refine hinv.follow rfl hinv.guarded rfl rfl rfl ?_ (by simp [Phase.name?])
    rw [hphase]
    constructor <;> simp [Phase.stage, Phase.registers, CollectPoint.registers, Phase.tables]

private theorem Inv.thread (hinv : Inv owner s) (hstep : ThreadStep owner t s s') :
    Inv owner s' := by
  cases hstep with
  | leasing hphase hstep => exact hinv.leasing hphase hstep
  | publishing hphase hstep => exact hinv.publishing hphase hstep
  | releasing hphase hstep => exact hinv.releasing hphase hstep
  | collecting hphase hstep => exact hinv.collecting hphase hstep
  | leave job hphase =>
    have hregistrar := hinv.registers t (by simp [hphase, Phase.registers, CollectPoint.registers])
    exact hinv.register (.inr hregistrar) rfl (by simp [Phase.registers])
      (by simp [Phase.tables]) rfl
  | _ =>
    refine hinv.follow rfl hinv.guarded rfl rfl rfl ?_ (by simp [Phase.name?])
    constructor <;> simp [Phase.stage, Phase.registers, LeasePoint.registers,
      CollectPoint.registers, Phase.tables]

private theorem Inv.exit (hinv : Inv owner s) (hstep : ExitStep owner s s') : Inv owner s' := by
  cases hstep with
  | exit p =>
    exact ⟨hinv.guarded, hinv.registers, hinv.tables, hinv.owned, hinv.named, hinv.unlinking⟩
  | reap t hdead =>
    have hothers : ∀ u, u ≠ t → s.registrar = some u →
        (if s.registrar = some t then none else s.registrar) = some u := by
      intro u hut hu
      rw [if_neg, hu]
      rw [hu]
      exact fun h => hut (Option.some.inj h)
    refine hinv.goto rfl ?_ hothers (by simp [Phase.registers])
      (fun _ _ h => h) (by simp [Phase.tables]) (by simp [Phase.name?]) (fun _ _ _ h => .inl h)
      (by simp)
    exact hinv.guarded.leave (stage_goto rfl) (by simp [Phase.stage]) hothers
  | unlock p d lease hdead hheld =>
    refine ⟨hinv.unleased hheld, hinv.registers, hinv.tables, ?_, hinv.named, ?_⟩
    · exact fun q d' lease' h => hinv.owned q d' lease' (setTable_none h)
    · intro u d' name hphase
      have hnone := hinv.unlinking u d' name hphase
      by_contra hsome
      obtain ⟨lease', hlease⟩ := Option.ne_none_iff_exists'.mp hsome
      rw [setTable_none hlease] at hnone
      cases hnone

/-- The step lemma: every step keeps the invariant. -/
theorem Inv.step (hinv : Inv owner s) (hstep : Step owner s s') : Inv owner s' := by
  obtain hexit | ⟨t, -, hthread⟩ := hstep
  · exact hinv.exit hexit
  · exact hinv.thread hthread

end Collecting

end Steps

end MrBoxington.OutDir
