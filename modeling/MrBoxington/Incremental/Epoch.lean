import MrBoxington.Incremental.Removal

/-!
# The copy epoch

The epoch file is written before any old state is retired, and lists what is still to be
retired. What it lists existed when it was first written; what existed then and is still at
its path is listed. A process that dies after it has retired a checkout leaves it listed,
though: a directory that a build creates there afterwards is retired as well.
-/

namespace MrBoxington.Incremental

variable {π κ υ : Type} {careful : Prop}

/-- A directory is listed if it was there at first; where builds are careful, only then. -/
def Checkout.Listed (careful : Prop) (directory : Checkout υ) (k : κ) (pending : List κ)
    (first : κ → Option ℕ) : Prop :=
  (first k = some directory.born → k ∈ pending) ∧
    (careful → k ∈ pending → first k = some directory.born)

/-- Where old state is discarded, the epoch file lists what is mentioned, and what was there
when it was first written remains to be seen to. -/
def State.Loop (s : State π κ υ) (mentioned remaining : List κ) : Prop :=
  ∃ pending, s.epoch = some pending ∧ (∀ k ∈ mentioned, k ∈ pending) ∧
    ∀ first k born, s.first = some first → first k = some born → s.HasCheckout k born →
      k ∈ remaining

/-- A tree that may be renamed back is listed as if it were at its path. -/
def State.Returns (careful : Prop) (s : State π κ υ) (k : κ) (time : ℕ) : Prop :=
  ∀ directory pending first, s.retired time = some (.checkout k directory) →
    s.epoch = some pending → s.first = some first → directory.Listed careful k pending first

/-- What a process has found out about the epoch file is the case. -/
def State.Justifies (careful : Prop) (s : State π κ υ) : Phase π κ υ → Prop
  | .acquiring _ .build _ => s.epoch ≠ none
  | .creating _ => s.epoch ≠ none
  | .discarding _ .listing => s.epoch = none
  | .discarding _ (.writing keys) => s.epoch = none ∧ ∀ k, k ∈ keys ↔ s.checkout k ≠ none
  | .discarding _ (.next todo kept) => s.Loop (kept ++ todo) (kept ++ todo)
  | .discarding _ (.probing k todo kept _) => s.Loop (k :: (kept ++ todo)) (k :: (kept ++ todo))
  | .discarding _ (.retiring k todo kept) => s.Loop (k :: (kept ++ todo)) (k :: (kept ++ todo))
  | .discarding _ (.unrecording k todo kept time) =>
    s.Loop (k :: (kept ++ todo)) (kept ++ todo) ∧ s.Returns careful k time
  | .discarding _ (.restoring k todo kept time) =>
    s.Loop (k :: (kept ++ todo)) (kept ++ todo) ∧ s.Returns careful k time
  | .discarding _ (.saving kept) => s.Loop kept kept
  | .discarding _ (.leaving true) => s.epoch ≠ none
  | .guarding job _ (.unrecording time) => s.Returns careful job.key time
  | .guarding job _ (.restoring time) => s.Returns careful job.key time
  | _ => True

/-- What the epoch file says. -/
structure EpochInv (careful : Prop) (s : State π κ υ) : Prop where
  born : ∀ k directory, s.checkout k = some directory → directory.born < s.now
  bornRetired : ∀ time k directory, s.retired time = some (.checkout k directory) →
    directory.born < s.now
  unwritten : s.epoch = none → s.first = none
  /-- The epoch file lists what was there at first, and everything that is still there. -/
  written : ∀ pending, s.epoch = some pending → ∃ first, s.first = some first ∧
    (∀ k ∈ pending, first k ≠ none) ∧ (∀ k born, first k = some born → born < s.now) ∧
    ∀ k directory, s.checkout k = some directory → directory.Listed careful k pending first
  justified : ∀ p, s.Justifies careful (s.phase p)

private theorem State.Loop.mono {s : State π κ υ}
    {mentioned mentioned' remaining remaining' : List κ}
    (hloop : s.Loop mentioned remaining) (hmentioned : ∀ k ∈ mentioned', k ∈ mentioned)
    (hremaining : ∀ k born, s.HasCheckout k born → k ∈ remaining → k ∈ remaining') :
    s.Loop mentioned' remaining' := by
  obtain ⟨pending, hepoch, hpending, hleft⟩ := hloop
  exact ⟨pending, hepoch, fun k hk => hpending k (hmentioned k hk),
    fun first k born hfirst hborn hthere =>
      hremaining k born hthere (hleft first k born hfirst hborn hthere)⟩

private theorem State.justifies_begin {s : State π κ υ} {build : Option κ} {keys : List κ}
    (hepoch : s.epoch = some keys)
    (hkeys : ∀ first k born, s.first = some first → first k = some born →
      s.HasCheckout k born → k ∈ keys) :
    s.Justifies careful (.discarding build (.begin keys)) := by
  unfold DiscardPoint.begin
  split
  · exact fun hnone => nomatch hepoch.symm.trans hnone
  · exact ⟨keys, hepoch, fun k hk => hk, hkeys⟩

private theorem State.justifies_done {s : State π κ υ} {job : Job κ υ} {dryRun : Bool} :
    s.Justifies careful (job.done dryRun) := by
  cases job <;> exact trivial

private theorem State.justifies_discarded {s : State π κ υ} {build : Option κ}
    (hepoch : s.epoch ≠ none) :
    s.Justifies careful (discarded build) := by
  cases build with
  | none => exact trivial
  | some k => exact hepoch

/-- A process that creates the directory of a checkout finds that the epoch file does not
list the checkout. -/
def State.CarefulBuild (s : State π κ υ) (p : π) : Prop :=
  ∀ k pending, s.phase p = .creating k → s.checkout k = none → s.epoch = some pending →
    k ∉ pending

/-- A root directory that nobody uses yet, without an epoch file. -/
structure State.Unmigrated (s : State π κ υ) : Prop extends s.Initial where
  bornRetired : ∀ time k directory, s.retired time = some (.checkout k directory) →
    directory.born < s.now
  epoch : s.epoch = none

private theorem State.Unmigrated.epochInv {s : State π κ υ} (hinitial : s.Unmigrated) :
    EpochInv careful s where
  born := hinitial.checkout
  bornRetired := hinitial.bornRetired
  unwritten _ := hinitial.first
  written pending hepoch := nomatch hinitial.epoch.symm.trans hepoch
  justified p := by
    rw [hinitial.phase p]
    exact trivial

section Frames

variable {s s' : State π κ υ}

/-- Nothing from the beginning comes back. -/
structure State.Ages (careful : Prop) (s s' : State π κ υ) : Prop where
  epoch : s'.epoch = s.epoch
  first : s'.first = s.first
  now : s.now ≤ s'.now
  retired : ∀ time k directory, s'.retired time = some (.checkout k directory) →
    s.retired time = some (.checkout k directory)
  /-- Directories that appear are new; where builds are careful, they are not listed. -/
  checkout : ∀ k directory, s'.checkout k = some directory →
    s.HasCheckout k directory.born ∨
      s.now ≤ directory.born ∧ (careful → ∀ pending, s.epoch = some pending → k ∉ pending)
  unwritten : s.epoch = none → ∀ k, s'.checkout k ≠ none ↔ s.checkout k ≠ none

private theorem State.Justifies.ages {phase : Phase π κ υ} (hjustified : s.Justifies careful phase)
    (hinv : EpochInv careful s) (hages : s.Ages careful s') : s'.Justifies careful phase := by
  have hloop : ∀ {mentioned remaining : List κ}, s.Loop mentioned remaining →
      s'.Loop mentioned remaining := by
    rintro mentioned remaining ⟨pending, hepoch, hmentioned, hremaining⟩
    obtain ⟨first, hfirst, -, hpast, -⟩ := hinv.written pending hepoch
    refine ⟨pending, hages.epoch.trans hepoch, hmentioned, ?_⟩
    rintro first' k born hfirst' hborn ⟨directory, hthere, rfl⟩
    rw [hages.first] at hfirst'
    obtain rfl : first = first' := Option.some.inj (hfirst.symm.trans hfirst')
    rcases hages.checkout k directory hthere with hold | ⟨hnew, -⟩
    · exact hremaining first k _ hfirst hborn hold
    · exact absurd (hpast k _ hborn) (Nat.not_lt.mpr hnew)
  have hreturns : ∀ {k : κ} {time : ℕ}, s.Returns careful k time →
      s'.Returns careful k time := by
    intro k time hreturns directory pending first htree hepoch hfirst
    exact hreturns directory pending first (hages.retired time k directory htree)
      (hages.epoch ▸ hepoch) (hages.first ▸ hfirst)
  unfold State.Justifies at hjustified ⊢
  split
  case h_4 =>
    exact ⟨hages.epoch.trans hjustified.1,
      fun k => (hjustified.2 k).trans (hages.unwritten hjustified.1 k).symm⟩
  all_goals first
    | exact hloop hjustified
    | exact hreturns hjustified
    | exact ⟨hloop hjustified.1, hreturns hjustified.2⟩
    | exact trivial
    | rw [hages.epoch]; exact hjustified

private theorem EpochInv.ages (hinv : EpochInv careful s) (hages : s.Ages careful s')
    (hborn : ∀ k directory, s'.checkout k = some directory → directory.born < s'.now)
    (hjustified : ∀ p, s'.Justifies careful (s'.phase p)) : EpochInv careful s' where
  born := hborn
  bornRetired time k directory htree :=
    Nat.lt_of_lt_of_le (hinv.bornRetired time k directory
      (hages.retired time k directory htree)) hages.now
  unwritten hepoch := hages.first.trans (hinv.unwritten (hages.epoch.symm.trans hepoch))
  written pending hepoch := by
    have hepoch' := hages.epoch.symm.trans hepoch
    obtain ⟨first, hfirst, hpending, hpast, hlisted⟩ := hinv.written pending hepoch'
    refine ⟨first, hages.first.trans hfirst, hpending,
      fun k born h => Nat.lt_of_lt_of_le (hpast k born h) hages.now, fun k directory hthere => ?_⟩
    rcases hages.checkout k directory hthere with ⟨old, hold, heq⟩ | ⟨hnew, hcareful⟩
    · have hsame := hlisted k old hold
      unfold Checkout.Listed at hsame ⊢
      rwa [← heq]
    · exact ⟨fun h => absurd (hpast k _ h) (Nat.not_lt.mpr hnew),
        fun h hmem => absurd hmem (hcareful h pending hepoch')⟩
  justified := hjustified

private theorem State.ages_of_eq (hepoch : s'.epoch = s.epoch) (hfirst : s'.first = s.first)
    (hnow : s.now ≤ s'.now) (hretired : s'.retired = s.retired)
    (hcheckout : s'.checkout = s.checkout) : s.Ages careful s' where
  epoch := hepoch
  first := hfirst
  now := hnow
  retired _ _ _ h := hretired ▸ h
  checkout k directory hthere := .inl ⟨directory, hcheckout ▸ hthere, rfl⟩
  unwritten _ k := by rw [hcheckout]

end Frames

section Retired

variable [DecidableEq κ] {s : State π κ υ}

private theorem State.checkout_retireCheckout {k k' : κ} {directory' : Checkout υ}
    (directory : Checkout υ)
    (hthere : (s.retireCheckout k directory).checkout k' = some directory') :
    s.checkout k' = some directory' ∧ k' ≠ k := by
  by_cases hk : k' = k
  · subst hk
    simp [State.retireCheckout] at hthere
  · exact ⟨by simpa [State.retireCheckout, hk] using hthere, hk⟩

private theorem State.checkout_restoreCheckout {k k' : κ} {directory directory' : Checkout υ}
    (time : ℕ) (hthere : (s.restoreCheckout k directory time).checkout k' = some directory') :
    k' = k ∧ directory' = directory ∨ s.checkout k' = some directory' := by
  by_cases hk : k' = k
  · subst hk
    exact .inl ⟨rfl, by simpa [State.restoreCheckout, eq_comm] using hthere⟩
  · exact .inr (by simpa [State.restoreCheckout, hk] using hthere)

private theorem EpochInv.returns_retire (hinv : EpochInv careful s) {k : κ} {directory : Checkout υ}
    (hthere : s.checkout k = some directory) :
    (s.retireCheckout k directory).Returns careful k s.now := by
  intro directory' pending first htree hepoch hfirst
  obtain rfl : directory = directory' := by simpa [State.retireCheckout] using htree
  obtain ⟨first', hfirst', -, -, hlisted⟩ := hinv.written pending hepoch
  obtain rfl : first' = first := Option.some.inj (hfirst'.symm.trans hfirst)
  exact hlisted k directory hthere

end Retired

section Steps

variable [DecidableEq π] {p : π} {s s' : State π κ υ} {next : Phase π κ υ}

@[simp]
private theorem State.justifies_goto {phase : Phase π κ υ} :
    (s.goto p next).Justifies careful phase ↔ s.Justifies careful phase := Iff.rfl

private theorem EpochInv.of_goto (hphase : s'.phase = s.phase)
    (hinv : EpochInv careful (s'.goto p (s.phase p))) : EpochInv careful s' := by
  rwa [State.goto, ← hphase, Function.update_eq_self] at hinv

private theorem EpochInv.follow (hinv : EpochInv careful s) (hages : s.Ages careful s')
    (hphase : s'.phase = s.phase)
    (hborn : ∀ k directory, s'.checkout k = some directory → directory.born < s'.now)
    (hnext : s.Justifies careful next) : EpochInv careful (s'.goto p next) := by
  have hages' : s.Ages careful (s'.goto p next) :=
    ⟨hages.epoch, hages.first, hages.now, hages.retired, hages.checkout, hages.unwritten⟩
  refine hinv.ages hages' hborn fun q => ?_
  by_cases hqp : q = p
  · subst hqp
    simpa using hnext.ages hinv hages'
  · simpa [hqp, hphase] using (hinv.justified q).ages hinv hages'

private theorem EpochInv.goto (hinv : EpochInv careful s) (hphase : s'.phase = s.phase)
    (hepoch : s'.epoch = s.epoch) (hfirst : s'.first = s.first) (hnow : s.now ≤ s'.now)
    (hretired : s'.retired = s.retired) (hcheckout : s'.checkout = s.checkout)
    (hnext : s.Justifies careful next) : EpochInv careful (s'.goto p next) := by
  refine hinv.follow (State.ages_of_eq hepoch hfirst hnow hretired hcheckout) hphase ?_ hnext
  intro k directory hthere
  rw [hcheckout] at hthere
  exact Nat.lt_of_lt_of_le (hinv.born k directory hthere) hnow

private theorem EpochInv.hold (hinv : EpochInv careful s) (hlease : Inv s)
    (hregistrar : s.registrar = some p) (hphase : s'.phase = s.phase)
    (hepoch : s.epoch ≠ none → s'.epoch ≠ none) (hnext : s'.Justifies careful next) (q : π) :
    (s'.goto p next).Justifies careful ((s'.goto p next).phase q) := by
  by_cases hqp : q = p
  · subst hqp
    simpa using hnext
  · have hfree : (s.phase q).registers = false := by
      by_contra hregisters
      have hq := hlease.registers q (by simpa using hregisters)
      exact hqp (Option.some.inj (hq.symm.trans hregistrar))
    have hjustified := hinv.justified q
    simp only [State.goto_phase, Function.update_of_ne hqp, hphase]
    generalize s.phase q = phase at hfree hjustified
    unfold State.Justifies at hjustified ⊢
    split
    case h_1 | h_2 => exact hepoch hjustified
    all_goals first
      | exact trivial
      | simp [Phase.registers] at hfree

private theorem EpochInv.begin (hinv : EpochInv careful s) (hlease : Inv s)
    (hregistrar : s.registrar = some p) {keys : List κ}
    (hkeys : ∀ k, k ∈ keys ↔ s.checkout k ≠ none)
    (hnext : (s.beginEpoch keys).Justifies careful next) :
    EpochInv careful ((s.beginEpoch keys).goto p next) where
  born := hinv.born
  bornRetired := hinv.bornRetired
  unwritten := nofun
  written pending hepoch := by
    obtain rfl := Option.some.inj hepoch
    refine ⟨fun k => (s.checkout k).map Checkout.born, rfl, fun k hk => ?_, fun k born h => ?_,
      fun k directory hthere => ⟨fun _ => (hkeys k).mpr ?_, fun _ _ => ?_⟩⟩
    · simpa using (hkeys k).mp hk
    · obtain ⟨directory, hthere, rfl⟩ := Option.map_eq_some_iff.mp h
      exact hinv.born k directory hthere
    · exact fun hnone => nomatch hthere.symm.trans hnone
    · exact congrArg (Option.map Checkout.born) hthere
  justified := hinv.hold hlease hregistrar rfl (fun _ => nofun) hnext

private theorem EpochInv.save (hinv : EpochInv careful s) (hlease : Inv s)
    (hregistrar : s.registrar = some p) {kept : List κ} (hloop : s.Loop kept kept)
    (hnext : (s.setEpoch kept).Justifies careful next) :
    EpochInv careful ((s.setEpoch kept).goto p next) where
  born := hinv.born
  bornRetired := hinv.bornRetired
  unwritten := nofun
  written pending hepoch := by
    obtain rfl := Option.some.inj hepoch
    obtain ⟨pending, hepoch, hmentioned, hremaining⟩ := hloop
    obtain ⟨first, hfirst, hpending, hpast, hlisted⟩ := hinv.written pending hepoch
    exact ⟨first, hfirst, fun k hk => hpending k (hmentioned k hk), hpast,
      fun k directory hthere =>
        ⟨fun hborn => hremaining first k _ hfirst hborn ⟨directory, hthere, rfl⟩,
          fun h hk => (hlisted k directory hthere).2 h (hmentioned k hk)⟩⟩
  justified := hinv.hold hlease hregistrar rfl (fun _ => nofun) hnext

private theorem EpochInv.delete (hinv : EpochInv careful s) {time : ℕ}
    (hnext : s.Justifies careful next) :
    EpochInv careful ((s.setRetired time none).goto p next) := by
  refine hinv.follow ⟨rfl, rfl, Nat.le_refl _, fun time' k directory htree => ?_,
    fun k directory hthere => .inl ⟨directory, hthere, rfl⟩, fun _ _ => Iff.rfl⟩ rfl hinv.born hnext
  by_cases htime : time' = time
  · simp [htime] at htree
  · simpa [htime] using htree

variable [DecidableEq κ]

private theorem EpochInv.retire (hinv : EpochInv careful s) (hlease : Inv s)
    (hregistrar : s.registrar = some p) {k : κ} {directory : Checkout υ}
    (hthere : s.checkout k = some directory)
    (hnext : (s.retireCheckout k directory).Justifies careful next) :
    EpochInv careful ((s.retireCheckout k directory).goto p next) where
  born k' directory' hthere' := Nat.lt_succ_of_lt
    (hinv.born k' directory' (State.checkout_retireCheckout directory hthere').1)
  bornRetired time k' directory' htree := by
    by_cases htime : time = s.now
    · obtain ⟨rfl, rfl⟩ : k = k' ∧ directory = directory' := by
        simpa [State.retireCheckout, htime] using htree
      exact Nat.lt_succ_of_lt (hinv.born k directory hthere)
    · have hold : s.retired time = some (.checkout k' directory') := by
        simpa [State.retireCheckout, htime] using htree
      exact Nat.lt_succ_of_lt (hinv.bornRetired time k' directory' hold)
  unwritten := hinv.unwritten
  written pending hepoch := by
    obtain ⟨first, hfirst, hpending, hpast, hlisted⟩ := hinv.written pending hepoch
    exact ⟨first, hfirst, hpending, fun k' born h => Nat.lt_succ_of_lt (hpast k' born h),
      fun k' directory' hthere' =>
        hlisted k' directory' (State.checkout_retireCheckout directory hthere').1⟩
  justified := hinv.hold hlease hregistrar rfl (fun h => h) hnext

private theorem EpochInv.restore (hinv : EpochInv careful s) (hlease : Inv s)
    (hregistrar : s.registrar = some p) {k : κ} {directory : Checkout υ} {time : ℕ}
    (htree : s.retired time = some (.checkout k directory)) (hreturns : s.Returns careful k time)
    (hnext : (s.restoreCheckout k directory time).Justifies careful next) :
    EpochInv careful ((s.restoreCheckout k directory time).goto p next) where
  born k' directory' hthere := by
    rcases State.checkout_restoreCheckout time hthere with ⟨rfl, rfl⟩ | hold
    · exact hinv.bornRetired time k' directory' htree
    · exact hinv.born k' directory' hold
  bornRetired time' k' directory' htree' := by
    by_cases htime : time' = time
    · simp [State.restoreCheckout, htime] at htree'
    · have hold : s.retired time' = some (.checkout k' directory') := by
        simpa [State.restoreCheckout, htime] using htree'
      exact hinv.bornRetired time' k' directory' hold
  unwritten := hinv.unwritten
  written pending hepoch := by
    obtain ⟨first, hfirst, hpending, hpast, hlisted⟩ := hinv.written pending hepoch
    refine ⟨first, hfirst, hpending, hpast, fun k' directory' hthere => ?_⟩
    rcases State.checkout_restoreCheckout time hthere with ⟨rfl, rfl⟩ | hold
    · exact hreturns directory' pending first htree hepoch hfirst
    · exact hlisted k' directory' hold
  justified := hinv.hold hlease hregistrar rfl (fun h => h) hnext

private theorem EpochInv.update (hinv : EpochInv careful s) {k : κ}
    {directory directory' : Checkout υ}
    (hthere : s.checkout k = some directory)
    (hcheckout : s'.checkout = (s.setCheckout k (some directory')).checkout)
    (hborn : directory'.born = directory.born) (hphase : s'.phase = s.phase)
    (hepoch : s'.epoch = s.epoch) (hfirst : s'.first = s.first) (hnow : s.now ≤ s'.now)
    (hretired : ∀ time key tree, s'.retired time = some (.checkout key tree) →
      s.retired time = some (.checkout key tree))
    (hnext : s.Justifies careful next) : EpochInv careful (s'.goto p next) := by
  have hsame : ∀ k' directory'', s'.checkout k' = some directory'' →
      s.HasCheckout k' directory''.born := by
    intro k' directory'' hthere'
    rw [hcheckout] at hthere'
    by_cases hk : k' = k
    · subst hk
      obtain rfl : directory' = directory'' := by simpa using hthere'
      exact ⟨directory, hthere, hborn.symm⟩
    · exact ⟨directory'', by simpa [hk] using hthere', rfl⟩
  refine hinv.follow ⟨hepoch, hfirst, hnow, hretired, fun k' directory'' h =>
    .inl (hsame k' directory'' h), fun _ k' => ?_⟩ hphase (fun k' directory'' h => ?_) hnext
  · by_cases hk : k' = k
    · simp [hcheckout, hk, hthere]
    · simp [hcheckout, hk]
  · obtain ⟨old, hold, heq⟩ := hsame k' directory'' h
    exact Nat.lt_of_lt_of_le (heq ▸ hinv.born k' old hold) hnow

private theorem EpochInv.create (hinv : EpochInv careful s) {k : κ}
    (hphase : s.phase p = .creating k)
    (hnone : s.checkout k = none) (hcareful : careful → s.CarefulBuild p) :
    EpochInv careful (((s.setCheckout k (some ⟨s.now, fun _ => false⟩)).tick).goto p .idle) := by
  have hwritten : s.epoch ≠ none := by
    have hjustified := hinv.justified p
    rwa [hphase] at hjustified
  have hthere : ∀ k' directory, (s.setCheckout k (some ⟨s.now, fun _ => false⟩)).checkout k' =
      some directory → k' = k ∧ directory.born = s.now ∨ s.checkout k' = some directory := by
    intro k' directory h
    by_cases hk : k' = k
    · subst hk
      obtain rfl : ⟨s.now, fun _ => false⟩ = directory := by simpa using h
      exact .inl ⟨rfl, rfl⟩
    · exact .inr (by simpa [hk] using h)
  refine hinv.follow ⟨rfl, rfl, Nat.le_succ _, fun _ _ _ h => h, fun k' directory h => ?_,
    fun h => absurd h hwritten⟩ rfl (fun k' directory h => ?_) trivial
  · rcases hthere k' directory h with ⟨rfl, hborn⟩ | hold
    · exact .inr ⟨Nat.le_of_eq hborn.symm, fun h pending hepoch =>
        hcareful h k' pending hphase hnone hepoch⟩
    · exact .inl ⟨directory, hold, rfl⟩
  · rcases hthere k' directory h with ⟨-, hborn⟩ | hold
    · rw [hborn]
      exact Nat.lt_succ_self _
    · exact Nat.lt_succ_of_lt (hinv.born k' directory hold)

private theorem EpochInv.acquiring (hinv : EpochInv careful s) {k : κ} {purpose : Purpose}
    {point : AcquirePoint} (hphase : s.phase p = .acquiring k purpose point)
    (hstep : AcquireStep p k purpose point s next s') : EpochInv careful (s'.goto p next) := by
  have hjustified := hinv.justified p
  rw [hphase] at hjustified
  have hnext : s.Justifies careful next := by
    cases purpose with
    | build => cases hstep <;> first | exact hjustified | exact trivial
    | donor | trimming => cases hstep <;> exact trivial
  refine hinv.goto ?_ ?_ ?_ ?_ ?_ ?_ hnext <;> cases hstep <;>
    first | rfl | exact Nat.le_refl _ | exact Nat.le_succ _

private theorem EpochInv.dropping (hinv : EpochInv careful s) {k : κ} {random : ℕ}
    {point : DropPoint}
    (hstep : DropStep p k random point s next s') : EpochInv careful (s'.goto p next) := by
  have hnext : s.Justifies careful next := by cases hstep <;> exact trivial
  cases hstep with
  | leave _ registered =>
    cases registered <;> exact hinv.goto rfl rfl rfl (Nat.le_refl _) rfl rfl hnext
  | _ => exact hinv.goto rfl rfl rfl (Nat.le_refl _) rfl rfl hnext

private theorem EpochInv.discarding (hinv : EpochInv careful s) (hlease : Inv s) {build : Option κ}
    {point next : DiscardPoint π κ} (hphase : s.phase p = .discarding build point)
    (hstep : DiscardStep p point s next s') :
    EpochInv careful (s'.goto p (.discarding build next)) := by
  have hjustified := hinv.justified p
  rw [hphase] at hjustified
  have hregistrar : (Phase.discarding build point : Phase π κ υ).registers = true →
      s.registrar = some p := fun h => hlease.registers p (by simpa [hphase] using h)
  have hstill : ∀ {files : LeaseFiles.Disk κ (π × ℕ)},
      s.Justifies careful (.discarding build next) →
      EpochInv careful ((s.setFiles files).goto p (.discarding build next)) := fun hnext =>
    hinv.goto rfl rfl rfl (Nat.le_refl _) rfl rfl hnext
  cases hstep with
  | enter _ hfree => exact hinv.goto rfl rfl rfl (Nat.le_refl _) rfl rfl trivial
  | read _ keys hepoch =>
    refine hstill (State.justifies_begin hepoch ?_)
    rintro first k born hfirst hborn ⟨directory, hthere, rfl⟩
    obtain ⟨first', hfirst', -, -, hlisted⟩ := hinv.written keys hepoch
    obtain rfl : first' = first := Option.some.inj (hfirst'.symm.trans hfirst)
    exact (hlisted k directory hthere).1 hborn
  | readNothing _ hepoch => exact hstill hepoch
  | list _ keys hkeys => exact hstill ⟨hjustified, hkeys⟩
  | write _ keys =>
    refine hinv.begin hlease (hregistrar rfl) hjustified.2 (State.justifies_begin rfl ?_)
    rintro first k born - - ⟨directory, hthere, -⟩
    exact (hjustified.2 k).mpr fun hnone => nomatch hthere.symm.trans hnone
  | next _ k todo kept =>
    refine hstill (State.Loop.mono hjustified ?_ ?_) <;> intros <;> simp_all <;> tauto
  | probe _ k todo kept point result files hprobe =>
    refine hstill ?_
    rcases result with point' | (_ | _) | _
    · exact hjustified
    · exact hjustified
    all_goals refine State.Loop.mono hjustified ?_ ?_ <;> intros <;> simp_all <;> tauto
  | retire _ k todo kept directory hthere =>
    refine hinv.retire hlease (hregistrar rfl) hthere ⟨?_, hinv.returns_retire hthere⟩
    obtain ⟨pending, hepoch, hmentioned, hremaining⟩ := hjustified
    refine ⟨pending, hepoch, hmentioned, ?_⟩
    rintro first k' born hfirst hborn ⟨directory', hthere', rfl⟩
    obtain ⟨hold, hk⟩ := State.checkout_retireCheckout directory hthere'
    have hmem := hremaining first k' _ hfirst hborn ⟨directory', hold, rfl⟩
    exact (List.mem_cons.mp hmem).resolve_left hk
  | retireMissing _ k todo kept hnone =>
    refine hstill (State.Loop.mono hjustified (fun k' hk => List.mem_cons_of_mem _ hk) ?_)
    rintro k' born hthere hmem
    refine (List.mem_cons.mp hmem).resolve_left ?_
    rintro rfl
    exact State.not_hasCheckout hnone hthere
  | retireFails _ k todo kept =>
    refine hstill (State.Loop.mono hjustified ?_ ?_) <;> intros <;> simp_all <;> tauto
  | unrecord _ k todo kept time =>
    exact hstill (hjustified.1.mono (fun k' hk => List.mem_cons_of_mem _ hk) fun _ _ _ h => h)
  | unrecordFails _ k todo kept time => exact hstill hjustified
  | restore _ k todo kept time directory htree hfree =>
    refine hinv.restore hlease (hregistrar rfl) htree hjustified.2 ?_
    obtain ⟨pending, hepoch, hmentioned, hremaining⟩ := hjustified.1
    refine ⟨pending, hepoch, fun k' hk => hmentioned k' ?_, ?_⟩
    · simp only [List.mem_append, List.mem_cons, List.not_mem_nil, or_false] at hk ⊢
      tauto
    · rintro first k' born hfirst hborn ⟨directory', hthere, rfl⟩
      rcases State.checkout_restoreCheckout time hthere with ⟨rfl, -⟩ | hold
      · simp
      · have hmem := hremaining first k' _ hfirst hborn ⟨directory', hold, rfl⟩
        simp only [List.mem_append, List.mem_cons, List.not_mem_nil, or_false] at hmem ⊢
        tauto
  | restoreFails _ k todo kept time =>
    refine hstill (hjustified.1.mono ?_ ?_) <;> intros <;> simp_all <;> tauto
  | all _ kept => exact hstill (State.Loop.mono hjustified (by simp) (by simp))
  | save _ kept => exact hinv.save hlease (hregistrar rfl) hjustified nofun
  | _ => exact hstill trivial

private theorem EpochInv.crash (hinv : EpochInv careful s) (hstep : CrashStep s s') :
    EpochInv careful s' := by
  cases hstep with
  | crash p => exact ⟨hinv.born, hinv.bornRetired, hinv.unwritten, hinv.written, hinv.justified⟩
  | reap p hdead => exact hinv.goto rfl rfl rfl (Nat.le_refl _) rfl rfl trivial
  | unlock p k random lease hdead hheld =>
    exact ⟨hinv.born, hinv.bornRetired, hinv.unwritten, hinv.written, hinv.justified⟩

variable [DecidableEq υ]

private theorem EpochInv.guarding (hinv : EpochInv careful s) (hlease : Inv s) {job : Job κ υ}
    {dryRun : Bool} {point next : GuardPoint π} (hphase : s.phase p = .guarding job dryRun point)
    (hstep : GuardStep p job dryRun point s next s') :
    EpochInv careful (s'.goto p (.guarding job dryRun next)) := by
  have hjustified := hinv.justified p
  rw [hphase] at hjustified
  have hregistrar : (Phase.guarding job dryRun point : Phase π κ υ).registers = true →
      s.registrar = some p := fun h => hlease.registers p (by simpa [hphase] using h)
  have hstill : ∀ {files : LeaseFiles.Disk κ (π × ℕ)},
      s.Justifies careful (.guarding job dryRun next) →
      EpochInv careful ((s.setFiles files).goto p (.guarding job dryRun next)) := fun hnext =>
    hinv.goto rfl rfl rfl (Nat.le_refl _) rfl rfl hnext
  cases hstep with
  | enter _ hfree => exact hinv.goto rfl rfl rfl (Nat.le_refl _) rfl rfl trivial
  | probe _ point result files hprobe =>
    refine hstill ?_
    rcases result with point' | (_ | _) | _
    · exact trivial
    · cases dryRun <;> exact trivial
    all_goals exact trivial
  | retireCheckout _ directory hwhole hthere =>
    exact hinv.retire hlease (hregistrar rfl) hthere (hinv.returns_retire hthere)
  | retireUnit _ directory u hjob hthere hunit =>
    refine hinv.update hthere rfl rfl rfl rfl rfl (Nat.le_succ _) ?_ trivial
    intro time key tree htree
    by_cases htime : time = s.now
    · simp [State.retireUnit, htime] at htree
    · simpa [State.retireUnit, htime] using htree
  | unrecordFails _ time => exact hstill hjustified
  | restore _ time directory htree hfree =>
    exact hinv.restore hlease (hregistrar rfl) htree hjustified trivial
  | _ => exact hstill trivial

private theorem EpochInv.process (hinv : EpochInv careful s) (hlease : Inv s)
    (hcareful : careful → s.CarefulBuild p) (hstep : ProcessStep p s s') :
    EpochInv careful s' := by
  have hjustified := hinv.justified p
  have hgoto : ∀ {next : Phase π κ υ}, s.Justifies careful next →
      EpochInv careful (s.goto p next) := fun hnext =>
    hinv.goto rfl rfl rfl (Nat.le_refl _) rfl rfl hnext
  have hleave : ∀ {next : Phase π κ υ}, s.Justifies careful next →
      EpochInv careful ((s.setRegistrar none).goto p next) := fun hnext =>
    hinv.goto rfl rfl rfl (Nat.le_refl _) rfl rfl hnext
  cases hstep with
  | acquiring hphase hstep => exact hinv.acquiring hphase hstep
  | dropping hphase hstep => exact hinv.dropping hstep
  | guarding hphase hstep => exact hinv.guarding hlease hphase hstep
  | discarding hphase hstep => exact hinv.discarding hlease hphase hstep
  | create k hphase hnone => exact hinv.create hphase hnone hcareful
  | compile k random directory u hidle hlease hthere =>
    exact .of_goto (p := p) (s := s) rfl (hinv.update hthere rfl rfl rfl rfl rfl (Nat.le_refl _)
      (fun _ _ _ h => h) hjustified)
  | sweep time hphase => exact .of_goto (p := p) (s := s) rfl (hinv.delete hjustified)
  | guardFails job dryRun hphase => exact hgoto State.justifies_done
  | unguard job dryRun retired hphase =>
    refine hleave ?_
    cases retired with
    | none => exact State.justifies_done
    | some time => exact trivial
  | delete job time hphase => exact hinv.delete State.justifies_done
  | deleteFails job time hphase => exact hgoto State.justifies_done
  | discardReady build hphase hready =>
    refine hgoto (State.justifies_discarded fun hnone => ?_)
    simp [State.copyStateReady, hnone] at hready
  | discarded build ok hphase =>
    rw [hphase] at hjustified
    cases ok with
    | true => exact hleave (State.justifies_discarded hjustified)
    | false => exact hleave trivial
  | _ => exact hgoto trivial

/-- A step in a run where builds are careful. -/
def CarefulStep (s s' : State π κ υ) : Prop :=
  CrashStep s s' ∨ ∃ p, s.alive p = true ∧ s.CarefulBuild p ∧ ProcessStep p s s'

private theorem CarefulStep.step (hstep : CarefulStep s s') : Step s s' :=
  hstep.imp_right fun ⟨p, halive, _, hprocess⟩ => ⟨p, halive, hprocess⟩

/-- Leases are protected, and the epoch file is right. -/
structure Migrating (careful : Prop) (s : State π κ υ) : Prop where
  lease : Inv s
  epoch : EpochInv careful s

private theorem migrating_of_reachable (hreach : Runs.Reachable State.Unmigrated Step s) :
    Migrating False s := by
  refine hreach.invariant (fun _ h => ⟨h.toInitial.inv, h.epochInv⟩) ?_
  rintro s s' ⟨hlease, hinv⟩ hstep
  refine ⟨hlease.step hstep, ?_⟩
  obtain hcrash | ⟨p, -, hprocess⟩ := hstep
  · exact hinv.crash hcrash
  · exact hinv.process hlease False.elim hprocess

private theorem migrating_of_careful (hreach : Runs.Reachable State.Unmigrated CarefulStep s) :
    Migrating True s := by
  refine hreach.invariant (fun _ h => ⟨h.toInitial.inv, h.epochInv⟩) ?_
  rintro s s' ⟨hlease, hinv⟩ (hcrash | ⟨p, halive, hcareful, hprocess⟩)
  · exact ⟨hlease.step (.inl hcrash), hinv.crash hcrash⟩
  · exact ⟨hlease.step (.inr ⟨p, halive, hprocess⟩),
      hinv.process hlease (fun _ => hcareful) hprocess⟩

/-- In every run, a checkout whose directory old state is discarded with has no lease on it,
and had a directory when the epoch file was first written; and where state may be copied,
none of the directories of that time is at its path. If no build ever creates a directory
that is still listed, the directory that is retired is the one of that time. -/
theorem epoch_respected {s : State π κ υ} (hreach : Runs.Reachable State.Unmigrated Step s) :
    (∀ p build k todo kept, s.phase p = .discarding build (.retiring k todo kept) →
      (∀ q random, s.leases q k random = none) ∧ ∃ first, s.first = some first ∧ first k ≠ none) ∧
    (s.copyStateReady = true → ∃ first, s.first = some first ∧
      ∀ k born, first k = some born → ¬s.HasCheckout k born) ∧
    (Runs.Reachable State.Unmigrated CarefulStep s → ∀ p build k todo kept directory,
      s.phase p = .discarding build (.retiring k todo kept) → s.checkout k = some directory →
        ∃ first, s.first = some first ∧ first k = some directory.born) := by
  obtain ⟨hlease, hinv⟩ := migrating_of_reachable hreach
  refine ⟨fun p build k todo kept hphase => ⟨fun q random => ?_, ?_⟩, fun hready => ?_,
    fun hcareful p build k todo kept directory hphase hthere => ?_⟩
  · by_contra hsome
    obtain ⟨lease, hheld⟩ := Option.ne_none_iff_exists'.mp hsome
    exact hlease.not_leased (p := p) (by simp [hphase, Phase.stage]) q random lease hheld
  · have hjustified := hinv.justified p
    rw [hphase] at hjustified
    obtain ⟨pending, hepoch, hmentioned, -⟩ := hjustified
    obtain ⟨first, hfirst, hpending, -⟩ := hinv.written pending hepoch
    exact ⟨first, hfirst, hpending k (hmentioned k List.mem_cons_self)⟩
  · obtain hepoch : s.epoch = some [] := by
      simpa [State.copyStateReady, Option.any_eq_true] using hready
    obtain ⟨first, hfirst, -, -, hlisted⟩ := hinv.written [] hepoch
    refine ⟨first, hfirst, ?_⟩
    rintro k born hborn ⟨directory, hthere, rfl⟩
    exact absurd ((hlisted k directory hthere).1 hborn) List.not_mem_nil
  · have hinv := (migrating_of_careful hcareful).epoch
    have hjustified := hinv.justified p
    rw [hphase] at hjustified
    obtain ⟨pending, hepoch, hmentioned, -⟩ := hjustified
    obtain ⟨first, hfirst, -, -, hlisted⟩ := hinv.written pending hepoch
    exact ⟨first, hfirst, (hlisted k directory hthere).2 trivial
      (hmentioned k List.mem_cons_self)⟩

end Steps

/-- A checkout with one unit, and two idle processes. -/
def oneCheckout : State Bool Unit Unit where
  alive _ := true
  registrar := none
  files := ⟨fun _ _ => none, fun _ => false, 0⟩
  leases _ _ _ := none
  checkout _ := some ⟨0, fun _ => true⟩
  retired _ := none
  epoch := none
  first := none
  now := 1
  phase _ := .idle

private theorem oneCheckout_unmigrated : oneCheckout.Unmigrated where
  registrar := rfl
  sound := ⟨fun _ _ _ => nofun, fun _ _ _ _ _ => nofun⟩
  leases _ _ _ := rfl
  retired _ _ := nofun
  checkout k directory hthere := by
    obtain rfl := Option.some.inj hthere
    exact Nat.one_pos
  first := rfl
  phase _ := rfl
  bornRetired _ _ _ := nofun
  epoch := rfl

/-- A process finds the first directory of the checkout, which nobody uses. -/
theorem epoch_respected_first :
    ∃ s : State Bool Unit Unit, Runs.Reachable State.Unmigrated CarefulStep s ∧
      s.phase false = .discarding none (.retiring () [] []) ∧
      s.checkout () = some ⟨0, fun _ => true⟩ ∧
      ∃ first, s.first = some first ∧ first () = some 0 := by
  have hstart : Runs.Reachable State.Unmigrated CarefulStep oneCheckout :=
    .start oneCheckout_unmigrated
  have hchecking := hstart.next (.inr ⟨false, rfl, nofun, .discard _ none rfl⟩)
  have hwaiting := hchecking.next (.inr ⟨false, rfl, nofun, .discarding rfl (.stale _ rfl)⟩)
  have hreading := hwaiting.next (.inr ⟨false, rfl, nofun, .discarding rfl (.enter _ rfl)⟩)
  have hlisting := hreading.next (.inr ⟨false, rfl, nofun,
    .discarding rfl (.readNothing _ rfl)⟩)
  have hwriting := hlisting.next (.inr ⟨false, rfl, nofun,
    .discarding rfl (.list _ [()] (by simp [oneCheckout]))⟩)
  have hbegun := hwriting.next (.inr ⟨false, rfl, nofun, .discarding rfl (.write _ [()])⟩)
  have hprobing := hbegun.next (.inr ⟨false, rfl, nofun, .discarding rfl (.next _ () [] [])⟩)
  have hlisted := hprobing.next (.inr ⟨false, rfl, nofun, .discarding rfl (.probe _ () [] [] _ _ _
    (.list _ [] (by simp [oneCheckout])))⟩)
  have hretiring := hlisted.next (.inr ⟨false, rfl, nofun, .discarding rfl (.probe _ () [] [] _ _ _
    (.judge _ []))⟩)
  exact ⟨_, hretiring, rfl, rfl,
    (epoch_respected (hretiring.mono fun _ _ h => h.step)).2.2 hretiring false none () [] [] _
      rfl rfl⟩

/-- A checkout is in use when the epoch file is written, so that a build goes on with the
checkout listed. Then it is retired by a process that dies before it saves the list; the
build creates the directory anew, and the new directory is retired as well. -/
theorem new_directory_retired :
    ∃ (s : State Bool Unit Unit) (directory : Checkout Unit) (first : Unit → Option ℕ),
      Runs.Reachable State.Unmigrated Step s ∧
      s.phase false = .discarding none (.retiring () [] []) ∧
      s.checkout () = some directory ∧ s.first = some first ∧ first () ≠ some directory.born := by
  have hstart : Runs.Reachable State.Unmigrated Step oneCheckout := .start oneCheckout_unmigrated
  have hnone : ∀ name : Bool × ℕ, name ∈ [] ↔ Function.update (Function.update (Function.update
      (Function.update (fun _ => none) (true, 7) (some 0)) (true, 7) none) (false, 7) (some 1))
      (false, 7) none name ≠ none := by simp
  -- The checkout is in use.
  have h := hstart.next (.inr ⟨true, rfl, .acquire _ () rfl⟩)
  replace h := h.next (.inr ⟨true, rfl, .acquiring rfl (.enter _ rfl)⟩)
  replace h := h.next (.inr ⟨true, rfl, .acquiring rfl (.create _ 7 rfl)⟩)
  replace h := h.next (.inr ⟨true, rfl, .acquiring rfl (.openFile _ 7 0 _ (.found rfl))⟩)
  replace h := h.next (.inr ⟨true, rfl, .acquiring rfl (.lock _ 7 0 rfl)⟩)
  replace h := h.next (.inr ⟨true, rfl, .acquiring rfl (.leave _)⟩)
  -- The epoch file is written, and the checkout stays listed.
  replace h := h.next (.inr ⟨false, rfl, .discard _ (some ()) rfl⟩)
  replace h := h.next (.inr ⟨false, rfl, .discarding rfl (.stale _ rfl)⟩)
  replace h := h.next (.inr ⟨false, rfl, .discarding rfl (.enter _ rfl)⟩)
  replace h := h.next (.inr ⟨false, rfl, .discarding rfl (.readNothing _ rfl)⟩)
  replace h := h.next (.inr ⟨false, rfl, .discarding rfl (.list _ [()]
    fun _ => ⟨fun _ => Option.some_ne_none _, fun _ => .head _⟩)⟩)
  replace h := h.next (.inr ⟨false, rfl, .discarding rfl (.write _ [()])⟩)
  replace h := h.next (.inr ⟨false, rfl, .discarding rfl (.next _ () [] [])⟩)
  replace h := h.next (.inr ⟨false, rfl, .discarding rfl (.probe _ () [] [] _ _ _
    (.list _ [(true, 7)] (by
      simp [LeaseFiles.Disk.create, LeaseFiles.Disk.lock, oneCheckout, Function.update_apply])))⟩)
  replace h := h.next (.inr ⟨false, rfl, .discarding rfl (.probe _ () [] [] _ _ _
    (.held _ _ (true, 7) [] [] 0 (.found rfl) rfl))⟩)
  replace h := h.next (.inr ⟨false, rfl, .discarding rfl (.probe _ () [] [] _ _ _
    (.judge _ [(true, 7)]))⟩)
  replace h := h.next (.inr ⟨false, rfl, .discarding rfl (.all _ [()])⟩)
  replace h := h.next (.inr ⟨false, rfl, .discarding rfl (.save _ [()])⟩)
  replace h := h.next (.inr ⟨false, rfl, .discarded _ (some ()) true rfl⟩)
  -- The lease is dropped.
  replace h := h.next (.inr ⟨true, rfl, .drop _ () 7 rfl (Option.some_ne_none _)⟩)
  replace h := h.next (.inr ⟨true, rfl, .dropping rfl (.enter _ rfl)⟩)
  replace h := h.next (.inr ⟨true, rfl, .dropping rfl (.unlock _ true ⟨0, 1⟩ rfl)⟩)
  replace h := h.next (.inr ⟨true, rfl, .dropping rfl (.unlink _ true)⟩)
  replace h := h.next (.inr ⟨true, rfl, .dropping rfl (.leave _ true)⟩)
  -- The process that had it retires the checkout, and dies.
  replace h := h.next (.inr ⟨true, rfl, .discard _ none rfl⟩)
  replace h := h.next (.inr ⟨true, rfl, .discarding rfl (.stale _ rfl)⟩)
  replace h := h.next (.inr ⟨true, rfl, .discarding rfl (.enter _ rfl)⟩)
  replace h := h.next (.inr ⟨true, rfl, .discarding rfl (.read _ [()] rfl)⟩)
  replace h := h.next (.inr ⟨true, rfl, .discarding rfl (.next _ () [] [])⟩)
  replace h := h.next (.inr ⟨true, rfl, .discarding rfl (.probe _ () [] [] _ _ _
    (.list _ [] (by
      simp [LeaseFiles.Disk.create, LeaseFiles.Disk.lock, LeaseFiles.Disk.unlock,
        LeaseFiles.Disk.unlink, oneCheckout])))⟩)
  replace h := h.next (.inr ⟨true, rfl, .discarding rfl (.probe _ () [] [] _ _ _ (.judge _ []))⟩)
  replace h := h.next (.inr ⟨true, rfl, .discarding rfl (.retire _ () [] [] _ rfl)⟩)
  replace h := h.next (.inl (.crash _ true))
  replace h := h.next (.inl (.reap _ true rfl))
  -- The build goes on with a new directory, and ends.
  replace h := h.next (.inr ⟨false, rfl, .acquiring rfl (.enter _ rfl)⟩)
  replace h := h.next (.inr ⟨false, rfl, .acquiring rfl (.create _ 7 rfl)⟩)
  replace h := h.next (.inr ⟨false, rfl, .acquiring rfl (.openFile _ 7 1 _ (.found rfl))⟩)
  replace h := h.next (.inr ⟨false, rfl, .acquiring rfl (.lock _ 7 1 rfl)⟩)
  replace h := h.next (.inr ⟨false, rfl, .acquiring rfl (.leave _)⟩)
  replace h := h.next (.inr ⟨false, rfl, .create _ () rfl rfl⟩)
  replace h := h.next (.inr ⟨false, rfl, .drop _ () 7 rfl (Option.some_ne_none _)⟩)
  replace h := h.next (.inr ⟨false, rfl, .dropping rfl (.enter _ rfl)⟩)
  replace h := h.next (.inr ⟨false, rfl, .dropping rfl (.unlock _ true ⟨1, 3⟩ rfl)⟩)
  replace h := h.next (.inr ⟨false, rfl, .dropping rfl (.unlink _ true)⟩)
  replace h := h.next (.inr ⟨false, rfl, .dropping rfl (.leave _ true)⟩)
  -- The checkout is still listed.
  replace h := h.next (.inr ⟨false, rfl, .discard _ none rfl⟩)
  replace h := h.next (.inr ⟨false, rfl, .discarding rfl (.stale _ rfl)⟩)
  replace h := h.next (.inr ⟨false, rfl, .discarding rfl (.enter _ rfl)⟩)
  replace h := h.next (.inr ⟨false, rfl, .discarding rfl (.read _ [()] rfl)⟩)
  replace h := h.next (.inr ⟨false, rfl, .discarding rfl (.next _ () [] [])⟩)
  replace h := h.next (.inr ⟨false, rfl, .discarding rfl (.probe _ () [] [] _ _ _
    (.list _ [] hnone))⟩)
  replace h := h.next (.inr ⟨false, rfl, .discarding rfl (.probe _ () [] [] _ _ _ (.judge _ []))⟩)
  exact ⟨_, ⟨4, fun _ => false⟩, fun _ => some 0, h, rfl, rfl, rfl, by decide⟩

end MrBoxington.Incremental
