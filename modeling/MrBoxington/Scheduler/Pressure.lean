import Mathlib.Data.List.Basic

/-!
# Memory pressure with hysteresis

A pool samples the memory of its machine. Two bad samples in a row turn pressure on, five
seconds of healthy samples turn it off, and for five seconds after that admissions are spaced.
Samples too far apart, or taken with a clock that went back, are not compared. The state keeps
a few fields only; here they are related to the whole history of samples.
-/

namespace MrBoxington.Scheduler.Pressure

/-- The floating-point operations that the figures are computed with. -/
structure Floats (F : Type) where
  ofNat : ℕ → F
  /-- The literal nearest to a fraction. -/
  literal : ℕ → ℕ → F
  mul : F → F → F
  div : F → F → F
  max : F → F → F
  lt : F → F → Bool
  le : F → F → Bool

/-- What the probes read; the stalls are in microseconds, by source. -/
structure Reading where
  total : Option ℕ := none
  available : Option ℕ := none
  stalls : List (String × ℕ) := []

structure State where
  version : ℕ := 0
  sampledMs : ℕ := 0
  reading : Reading := {}
  badSamples : ℕ := 0
  healthySince : Option ℕ := none
  pressured : Bool := false
  valid : Bool := false
  recoveredMs : Option ℕ := none
  lastAdmissionMs : Option ℕ := none

def currentVersion : ℕ := 1

def staleMs : ℕ := 3000

/-- The time since a sample, if it is comparable. -/
def elapsedSince (sampledMs now : ℕ) : Option ℕ :=
  if sampledMs < now ∧ now - sampledMs ≤ staleMs then some (now - sampledMs) else none

/-- Whether a sample is compared with the one before. -/
def State.comparable (state : State) (now : ℕ) : Bool :=
  state.version = currentVersion ∧ (elapsedSince state.sampledMs now).isSome

section Figures

variable {F : Type} (floats : Floats F)

/-- The largest share of the time that a source known before was stalled. -/
def stallPercent (elapsed : ℕ) (before reading : Reading) : Option F :=
  let shares := reading.stalls.filterMap fun (source, value) =>
    (before.stalls.lookup source).bind fun earlier =>
      if earlier ≤ value then
        some (floats.div (floats.ofNat (value - earlier))
          (floats.mul (floats.ofNat elapsed) (floats.literal 10 1)))
      else none
  match shares with
  | [] => none
  | share :: rest => some (rest.foldl floats.max share)

def State.stallPercent (state : State) (now : ℕ) (reading : Reading) : Option F :=
  if state.comparable now then
    (elapsedSince state.sampledMs now).bind fun elapsed =>
      Pressure.stallPercent floats elapsed state.reading reading
  else none

/-- The share of the memory that is available. -/
def Reading.headroom (reading : Reading) : Option F :=
  match reading.total, reading.available with
  | some total, some available =>
    if 0 < total then some (floats.div (floats.ofNat available) (floats.ofNat total)) else none
  | _, _ => none

/-- How a sample is classified. -/
inductive Kind where
  | invalid
  | bad
  | healthy
  | between
deriving DecidableEq

/-- Whether the figures are there, bad or healthy. -/
def isValid (headroom stall : Option F) : Bool := headroom.isSome || stall.isSome

def isBad (headroom stall : Option F) : Bool :=
  headroom.any (fun v => floats.lt v (floats.literal 5 100)) ||
    stall.any fun v => floats.le (floats.literal 10 1) v

def isHealthy (headroom stall : Option F) : Bool :=
  isValid headroom stall && headroom.all (fun v => floats.lt (floats.literal 10 100) v) &&
    stall.all fun v => floats.lt v (floats.literal 2 1)

def kindOf (headroom stall : Option F) : Kind :=
  if isValid headroom stall = false then .invalid
  else if isBad floats headroom stall then .bad
  else if isHealthy floats headroom stall then .healthy
  else .between

end Figures

/-! ## The state -/

/-- What is left of a state that a sample is not compared with. A forward gap keeps the spacing
after a recovery, and a clock that went back does not. -/
def State.forget (state : State) (now : ℕ) : State :=
  if state.version = currentVersion ∧ state.sampledMs < now then
    { recoveredMs := state.recoveredMs, lastAdmissionMs := state.lastAdmissionMs }
  else {}

/-- The effect of a sample of a kind. -/
def State.judge (state : State) (now : ℕ) : Kind → State
  | .invalid =>
    { state with pressured := false, badSamples := 0, healthySince := none, recoveredMs := none }
  | .bad =>
    let badSamples := min (state.badSamples + 1) 255
    if 2 ≤ badSamples then
      { state with badSamples, healthySince := none, pressured := true, recoveredMs := none }
    else { state with badSamples, healthySince := none }
  | .healthy =>
    if state.pressured then
      let start := state.healthySince.getD now
      if 5000 ≤ now - start then
        { state with badSamples := 0, pressured := false, recoveredMs := some now,
                     healthySince := none }
      else { state with badSamples := 0, healthySince := some start }
    else { state with badSamples := 0, healthySince := none }
  | .between => { state with badSamples := 0, healthySince := none }

/-- The spacing after a recovery ends on its own. -/
def State.expireRecovery (state : State) (now : ℕ) : State :=
  if state.recoveredMs.any (fun start => decide (5000 ≤ now - start)) then
    { state with recoveredMs := none }
  else state

/-- One sample. -/
def State.update {F : Type} (floats : Floats F) (state : State) (now : ℕ) (reading : Reading) :
    State :=
  let stall := state.stallPercent floats now reading
  let headroom := reading.headroom floats
  let kept := if state.comparable now then state else state.forget now
  let judged := { kept with valid := isValid headroom stall }.judge now
    (kindOf floats headroom stall)
  { judged.expireRecovery now with
    version := currentVersion
    sampledMs := now
    reading := reading }

section Judge

variable {state : State} {now start : ℕ} {kind : Kind}

private theorem State.judge_badSamples (hbad : (state.judge now kind).badSamples ≠ 0) :
    kind = .bad := by
  cases kind with
  | bad => rfl
  | healthy =>
    refine absurd ?_ hbad
    simp only [State.judge]
    split
    · split <;> rfl
    · rfl
  | invalid => exact absurd rfl hbad
  | between => exact absurd rfl hbad

private theorem State.judge_healthySince
    (hsince : (state.judge now kind).healthySince = some start) :
    kind = .healthy ∧ state.pressured = true ∧ start = state.healthySince.getD now := by
  cases kind with
  | bad =>
    simp only [State.judge] at hsince
    split at hsince <;> cases hsince
  | healthy =>
    simp only [State.judge] at hsince
    split at hsince
    · rename_i hpressured
      split at hsince
      · cases hsince
      · exact ⟨rfl, hpressured, (Option.some.inj hsince).symm⟩
    · cases hsince
  | invalid => cases hsince
  | between => cases hsince

private theorem State.judge_pressured_on (hbefore : state.pressured = false)
    (hafter : (state.judge now kind).pressured = true) :
    kind = .bad ∧ state.badSamples ≠ 0 := by
  cases kind with
  | bad =>
    simp only [State.judge] at hafter
    split at hafter
    · rename_i htwo
      exact ⟨rfl, by omega⟩
    · exact absurd (hbefore.symm.trans hafter) Bool.false_ne_true
  | healthy =>
    simp [State.judge, hbefore] at hafter
  | invalid => cases hafter
  | between => exact absurd (hbefore.symm.trans hafter) Bool.false_ne_true

private theorem State.judge_pressured_off (hbefore : state.pressured = true)
    (hafter : (state.judge now kind).pressured = false) :
    kind = .invalid ∨ kind = .healthy ∧ 5000 ≤ now - state.healthySince.getD now := by
  cases kind with
  | invalid => exact .inl rfl
  | bad =>
    simp only [State.judge] at hafter
    split at hafter
    · cases hafter
    · exact absurd (hafter.symm.trans hbefore) Bool.false_ne_true
  | healthy =>
    simp only [State.judge, hbefore, if_true] at hafter
    split at hafter
    · rename_i hlong
      exact .inr ⟨rfl, hlong⟩
    · cases hafter
  | between => exact absurd (hafter.symm.trans hbefore) Bool.false_ne_true

/-- Ending the spacing touches nothing else. -/
theorem State.expireRecovery_fields (state : State) (now : ℕ) :
    (state.expireRecovery now).badSamples = state.badSamples ∧
      (state.expireRecovery now).healthySince = state.healthySince ∧
      (state.expireRecovery now).pressured = state.pressured := by
  unfold State.expireRecovery
  split
  · exact ⟨rfl, rfl, rfl⟩
  · exact ⟨rfl, rfl, rfl⟩

private theorem State.expireRecovery_recent {recovered : ℕ}
    (hset : (state.expireRecovery now).recoveredMs = some recovered) :
    now < recovered + 5000 := by
  unfold State.expireRecovery at hset
  split at hset
  · cases hset
  · rename_i hrecent
    simp only [hset, Option.any_some, decide_eq_true_eq] at hrecent
    omega

private theorem State.forget_fields (state : State) (now : ℕ) :
    (state.forget now).badSamples = 0 ∧ (state.forget now).healthySince = none ∧
      (state.forget now).pressured = false := by
  unfold State.forget
  split
  · exact ⟨rfl, rfl, rfl⟩
  · exact ⟨rfl, rfl, rfl⟩

end Judge

/-! ## Histories -/

/-- A call of the update. -/
structure Sample where
  now : ℕ
  reading : Reading

/-- A sample is comparable to the one before. -/
def Comparable (previous : Option Sample) (sample : Sample) : Prop :=
  ∃ last, previous = some last ∧ last.now < sample.now ∧ sample.now ≤ last.now + staleMs

section History

variable {F : Type} (floats : Floats F)

/-- The state after a history, whose newest sample comes first. -/
def stateAfter : List Sample → State
  | [] => {}
  | sample :: earlier => (stateAfter earlier).update floats sample.now sample.reading

/-- The kind of a sample, from its reading and the sample before. -/
def sampleKind (previous : Option Sample) (sample : Sample) : Kind :=
  kindOf floats (sample.reading.headroom floats)
    (previous.bind fun last =>
      (elapsedSince last.now sample.now).bind fun elapsed =>
        stallPercent floats elapsed last.reading sample.reading)

/-- The history ends with consecutive comparable healthy samples, the first of them at the
time. -/
inductive HealthyRun : List Sample → ℕ → Prop
  | first {earlier : List Sample} {sample : Sample}
      (hcomparable : Comparable earlier.head? sample)
      (hkind : sampleKind floats earlier.head? sample = .healthy) :
      HealthyRun (sample :: earlier) sample.now
  | next {earlier : List Sample} {sample : Sample} {start : ℕ}
      (hrun : HealthyRun earlier start) (hcomparable : Comparable earlier.head? sample)
      (hkind : sampleKind floats earlier.head? sample = .healthy) :
      HealthyRun (sample :: earlier) start

/-- The history ends with a bad sample. -/
def EndsBad (history : List Sample) : Prop :=
  ∃ last older, history = last :: older ∧ sampleKind floats older.head? last = .bad

/-- What the fields say about the history. -/
structure Reflects (history : List Sample) (state : State) : Prop where
  bad : state.badSamples ≠ 0 → EndsBad floats history
  healthy : ∀ start, state.healthySince = some start → HealthyRun floats history start

private theorem comparable_iff (earlier : List Sample) (sample : Sample) :
    (stateAfter floats earlier).comparable sample.now = true ↔
      Comparable earlier.head? sample := by
  cases earlier with
  | nil => simp [stateAfter, State.comparable, Comparable, currentVersion]
  | cons last older =>
    have hversion : (stateAfter floats (last :: older)).version = currentVersion := rfl
    have hsampled : (stateAfter floats (last :: older)).sampledMs = last.now := rfl
    simp only [State.comparable, hversion, hsampled, elapsedSince, Comparable, List.head?_cons,
      true_and, decide_eq_true_eq, Option.some.injEq, exists_eq_left']
    split
    · simp only [Option.isSome_some, true_iff]
      omega
    · simp only [Option.isSome_none, Bool.false_eq_true, false_iff]
      omega

/-- The figures that the state is judged by are those of the sample and the one before. -/
theorem kindOf_state (earlier : List Sample) (sample : Sample) :
    kindOf floats (sample.reading.headroom floats)
        ((stateAfter floats earlier).stallPercent floats sample.now sample.reading) =
      sampleKind floats earlier.head? sample := by
  have hcomparable : (stateAfter floats earlier).comparable sample.now = true ↔ _ :=
    comparable_iff floats earlier sample
  unfold sampleKind State.stallPercent
  congr 1
  cases earlier with
  | nil => rfl
  | cons last older =>
    have hsampled : (stateAfter floats (last :: older)).sampledMs = last.now := rfl
    have hreading : (stateAfter floats (last :: older)).reading = last.reading := rfl
    rw [hsampled, hreading]
    split
    · rfl
    · rename_i hnot
      rw [hcomparable] at hnot
      have hnone : elapsedSince last.now sample.now = none := by
        refine if_neg fun helapsed => hnot ⟨last, rfl, helapsed.1, ?_⟩
        omega
      simp [hnone]

/-- The state that the newest sample is judged in: the one before it, or what is left of it. -/
def keptState (earlier : List Sample) (sample : Sample) : State :=
  { (if (stateAfter floats earlier).comparable sample.now then stateAfter floats earlier
      else (stateAfter floats earlier).forget sample.now) with
    valid := isValid (sample.reading.headroom floats)
      ((stateAfter floats earlier).stallPercent floats sample.now sample.reading) }

/-- Evidence from before the sample counts only if the sample is comparable. -/
theorem keptState_fields (earlier : List Sample) (sample : Sample) :
    Comparable earlier.head? sample ∧
        (keptState floats earlier sample).badSamples = (stateAfter floats earlier).badSamples ∧
        (keptState floats earlier sample).healthySince =
          (stateAfter floats earlier).healthySince ∧
        (keptState floats earlier sample).pressured = (stateAfter floats earlier).pressured ∨
      ¬ Comparable earlier.head? sample ∧ (keptState floats earlier sample).badSamples = 0 ∧
        (keptState floats earlier sample).healthySince = none ∧
        (keptState floats earlier sample).pressured = false := by
  rw [← comparable_iff floats]
  unfold keptState
  split
  · rename_i hcomparable
    exact .inl ⟨hcomparable, rfl, rfl, rfl⟩
  · rename_i hcomparable
    exact .inr ⟨hcomparable, State.forget_fields _ _⟩

/-- The fields after a sample are those of the kept state, judged by the kind of the sample. -/
theorem stateAfter_cons_fields (earlier : List Sample) (sample : Sample) :
    let judged := (keptState floats earlier sample).judge sample.now
      (sampleKind floats earlier.head? sample)
    (stateAfter floats (sample :: earlier)).badSamples = judged.badSamples ∧
      (stateAfter floats (sample :: earlier)).healthySince = judged.healthySince ∧
      (stateAfter floats (sample :: earlier)).pressured = judged.pressured := by
  intro judged
  have hjudged : judged = (keptState floats earlier sample).judge sample.now
      (kindOf floats (sample.reading.headroom floats)
        ((stateAfter floats earlier).stallPercent floats sample.now sample.reading)) := by
    rw [kindOf_state]
  rw [hjudged]
  exact State.expireRecovery_fields _ _

variable {floats}

/-- A healthy sample in a kept state continues its run or begins one. -/
theorem Reflects.healthyRun {earlier : List Sample} {sample : Sample}
    (hreflects : Reflects floats earlier (stateAfter floats earlier))
    (hcomparable : Comparable earlier.head? sample)
    (hkind : sampleKind floats earlier.head? sample = .healthy) :
    HealthyRun floats (sample :: earlier)
      ((stateAfter floats earlier).healthySince.getD sample.now) := by
  cases hsince : (stateAfter floats earlier).healthySince with
  | none => exact .first hcomparable hkind
  | some start => exact .next (hreflects.healthy start hsince) hcomparable hkind

private theorem Reflects.cons {earlier : List Sample} {sample : Sample}
    (hreflects : Reflects floats earlier (stateAfter floats earlier)) :
    Reflects floats (sample :: earlier) (stateAfter floats (sample :: earlier)) := by
  obtain ⟨hbad, hsince, -⟩ := stateAfter_cons_fields floats earlier sample
  refine ⟨fun hne => ?_, fun start hstart => ?_⟩
  · rw [hbad] at hne
    exact ⟨sample, earlier, rfl, State.judge_badSamples hne⟩
  · rw [hsince] at hstart
    obtain ⟨hkind, hpressured, rfl⟩ := State.judge_healthySince hstart
    obtain ⟨hcomparable, -, hkept, -⟩ | ⟨-, -, -, hnot⟩ :=
      keptState_fields floats earlier sample
    · rw [hkept]
      exact hreflects.healthyRun hcomparable hkind
    · exact absurd (hnot.symm.trans hpressured) Bool.false_ne_true

private theorem reflects_stateAfter (history : List Sample) :
    Reflects floats history (stateAfter floats history) := by
  induction history with
  | nil => exact ⟨fun hne => absurd rfl hne, fun _ hsince => nomatch hsince⟩
  | cons sample earlier ih => exact ih.cons

/-- Pressure turns on at a second bad sample in a row, turns off after five seconds of healthy
samples or for want of evidence, and the spacing after a recovery ends within five seconds. -/
theorem pressure_transitions (floats : Floats F) (earlier : List Sample) (sample : Sample) :
    ((stateAfter floats earlier).pressured = false →
      (stateAfter floats (sample :: earlier)).pressured = true →
        sampleKind floats earlier.head? sample = .bad ∧ Comparable earlier.head? sample ∧
        EndsBad floats earlier) ∧
    ((stateAfter floats earlier).pressured = true →
      (stateAfter floats (sample :: earlier)).pressured = false →
        sampleKind floats earlier.head? sample = .invalid ∨ ¬ Comparable earlier.head? sample ∨
        ∃ start, HealthyRun floats (sample :: earlier) start ∧ start + 5000 ≤ sample.now) ∧
    ∀ recovered, (stateAfter floats (sample :: earlier)).recoveredMs = some recovered →
      sample.now < recovered + 5000 := by
  have hreflects : Reflects floats earlier _ := reflects_stateAfter earlier
  obtain ⟨-, -, hpressured⟩ := stateAfter_cons_fields floats earlier sample
  have hkept := keptState_fields floats earlier sample
  refine ⟨fun hbefore hafter => ?_, fun hbefore hafter => ?_, fun recovered hset =>
    State.expireRecovery_recent hset⟩
  · rw [hpressured] at hafter
    obtain ⟨hcomparable, hbad, -, hsame⟩ | ⟨-, hbad, -, hnot⟩ := hkept
    · obtain ⟨hkind, hne⟩ := State.judge_pressured_on (hsame.trans hbefore) hafter
      exact ⟨hkind, hcomparable, hreflects.bad (hbad ▸ hne)⟩
    · exact absurd hbad (State.judge_pressured_on hnot hafter).2
  · rw [hpressured] at hafter
    obtain ⟨hcomparable, -, hsince, hsame⟩ | ⟨hnot, -⟩ := hkept
    · obtain hkind | ⟨hkind, hlong⟩ := State.judge_pressured_off (hsame.trans hbefore) hafter
      · exact .inl hkind
      · rw [hsince] at hlong
        exact .inr (.inr ⟨_, hreflects.healthyRun hcomparable hkind, by omega⟩)
    · exact .inr (.inl hnot)

/-- Figures kept as fractions. -/
def fractions : Floats (ℕ × ℕ) where
  ofNat n := (n, 1)
  literal n d := (n, d)
  mul a b := (a.1 * b.1, a.2 * b.2)
  div a b := (a.1 * b.2, a.2 * b.1)
  max a b := if a.1 * b.2 < b.1 * a.2 then b else a
  lt a b := a.1 * b.2 < b.1 * a.2
  le a b := a.1 * b.2 ≤ b.1 * a.2

/-- A sample of so many free parts of a hundred. -/
def freeAt (available now : ℕ) : Sample := ⟨now, { total := some 100, available := some available }⟩

/-- A second bad sample turns pressure on, and the third healthy one, after five seconds, turns
it off. -/
theorem pressure_transitions_cycle :
    EndsBad fractions [freeAt 1 1000] ∧
      ∃ start, HealthyRun fractions [freeAt 50 7000, freeAt 50 4500, freeAt 50 2000,
        freeAt 1 1500, freeAt 1 1000] start ∧ start + 5000 ≤ 7000 := by
  have hon := (pressure_transitions fractions [freeAt 1 1000] (freeAt 1 1500)).1
    (by decide +kernel) (by decide +kernel)
  have hoff := (pressure_transitions fractions
    [freeAt 50 4500, freeAt 50 2000, freeAt 1 1500, freeAt 1 1000] (freeAt 50 7000)).2.1
    (by decide +kernel) (by decide +kernel)
  refine ⟨hon.2.2, ?_⟩
  obtain hinvalid | hgap | hrun := hoff
  · exact absurd hinvalid (by decide +kernel)
  · exact absurd ⟨freeAt 50 4500, rfl, by decide, by decide⟩ hgap
  · exact hrun

end History

end MrBoxington.Scheduler.Pressure
