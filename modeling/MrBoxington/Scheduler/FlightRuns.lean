import MrBoxington.Lib.LockPhases
import MrBoxington.Lib.Runs
import MrBoxington.Scheduler.Flights

/-!
# When a flight has one holder

A sweep closes the lock before it unlinks the lock file, and an acquirer does not
look at the path again once it has the lock. So an acquirer that opened the file
before the unlink flies on an inode without a name, and the next one flies on a
new lock file. As long as no lock file is unlinked under an open handle, at most
one process holds the lock of a flight.
-/

namespace MrBoxington.Scheduler

open LockFile (Phases)

/-- The handles and locks of the phases. -/
def flightPhases : Phases FlightPhase := ⟨FlightPhase.handle, FlightPhase.locked⟩

private theorem FlightPhase.exists_locked {phase : FlightPhase} (hholds : phase.Holds) :
    ∃ i, phase.locked = some i := by
  cases phase with
  | flying flight => exact Option.isSome_iff_exists.mp hholds
  | _ => exact hholds.elim

variable {π Bytes : Type} {codec : FlightCodec Bytes} {key : FlightKey}
  {s t : FlightState π Bytes} {p : π}

private theorem FlightState.Initial.settled (hinitial : s.Initial) :
    flightPhases.Settled s.disk s.phase :=
  .of_unused hinitial.path hinitial.opened hinitial.holder
    (fun p => by rw [hinitial.phase p]; rfl) (fun p => by rw [hinitial.phase p]; rfl)

variable [DecidableEq π]

private theorem FlightStep.tracked (hstep : FlightStep codec key p s t) :
    ∃ ψ, t.phase = Function.update s.phase p ψ ∧
      flightPhases.Step p s.disk (s.phase p) t.disk ψ := by
  cases hstep with
  | start hphase => exact ⟨_, rfl, hphase ▸ .stay rfl (fun _ h => h)⟩
  | openLock hphase hpath => exact ⟨_, rfl, hphase ▸ .openAt hpath rfl rfl rfl⟩
  | createLock hphase hpath => exact ⟨_, rfl, hphase ▸ .create hpath rfl rfl rfl⟩
  | tryLock hphase hfree => exact ⟨_, rfl, hphase ▸ .lock rfl hfree rfl rfl⟩
  | wait hphase => exact ⟨_, rfl, hphase ▸ .stay rfl (fun _ h => h)⟩
  | poll hphase hfree => exact ⟨_, rfl, hphase ▸ .lock rfl hfree rfl rfl⟩
  | giveUp => exact ⟨_, rfl, .close rfl rfl⟩
  | readAttempt hphase => exact ⟨_, rfl, hphase ▸ .stay rfl (fun _ h => h)⟩
  | readRecord hphase => exact ⟨_, rfl, hphase ▸ .stay rfl (fun _ h => h)⟩
  | establish _ hphase => exact ⟨_, rfl, hphase ▸ .stay rfl (fun _ h => h)⟩
  | leave _ hphase => exact ⟨_, rfl, hphase ▸ .stay rfl (fun _ h => h)⟩
  | release => exact ⟨_, rfl, .close rfl rfl⟩
  | drop => exact ⟨_, rfl, .close rfl rfl⟩
  | dropReleased hphase hlock =>
    refine ⟨_, rfl, hphase ▸ .stay hlock.symm (fun _ h => ?_)⟩
    exact absurd h.symm (Option.some_ne_none _)
  | findStale hphase => exact ⟨_, rfl, hphase ▸ .stay rfl (fun _ h => h)⟩
  | sweepOpen hphase hpath => exact ⟨_, rfl, hphase ▸ .openAt hpath rfl rfl rfl⟩
  | sweepCreate hphase hpath => exact ⟨_, rfl, hphase ▸ .create hpath rfl rfl rfl⟩
  | claim hphase hfree => exact ⟨_, rfl, hphase ▸ .lock rfl hfree rfl rfl⟩
  | skip => exact ⟨_, rfl, .close rfl rfl⟩
  | clearRecord hphase => exact ⟨_, rfl, hphase ▸ .stay rfl (fun _ h => h)⟩
  | clearAttempt hphase => exact ⟨_, rfl, hphase ▸ .stay rfl (fun _ h => h)⟩
  | close => exact ⟨_, rfl, .close rfl rfl⟩
  | unlink hphase => exact ⟨_, rfl, hphase ▸ .unlink rfl (fun _ h => h)⟩
  | findRecord hphase => exact ⟨_, rfl, hphase ▸ .stay rfl (fun _ h => h)⟩
  | discardRecord hphase => exact ⟨_, rfl, hphase ▸ .stay rfl (fun _ h => h)⟩
  | findAttempt hphase => exact ⟨_, rfl, hphase ▸ .stay rfl (fun _ h => h)⟩
  | discardAttempt hphase => exact ⟨_, rfl, hphase ▸ .stay rfl (fun _ h => h)⟩
  | abort => exact ⟨_, rfl, .close rfl rfl⟩
  | age => exact ⟨_, (Function.update_eq_self _ _).symm, .stay rfl (fun _ h => h)⟩

private theorem QuietFlightStep.settled (hsettled : flightPhases.Settled s.disk s.phase)
    (hstep : QuietFlightStep codec key s t) : flightPhases.Settled t.disk t.phase := by
  obtain ⟨p, hstep, hquiet⟩ := hstep
  obtain ⟨ψ, hupdate, htracked⟩ := hstep.tracked
  exact hupdate ▸ hsettled.step htracked hquiet

/-- In every run in which no lock file is unlinked while a process has it open, at
most one process holds a flight with its lock. -/
theorem quietFlights_unique
    (hreach : Runs.Reachable FlightState.Initial (QuietFlightStep codec key) s) :
    ∀ p q, (s.phase p).Holds → (s.phase q).Holds → p = q := by
  have hsettled : flightPhases.Settled s.disk s.phase :=
    hreach.invariant (fun _ h => h.settled) (fun _ _ h hstep => hstep.settled h)
  intro p q hp hq
  obtain ⟨i, hi⟩ := FlightPhase.exists_locked hp
  obtain ⟨j, hj⟩ := FlightPhase.exists_locked hq
  exact hsettled.unique hi hj

/-- Records that are their own bytes. -/
def plainFlightCodec : FlightCodec FlightRecord := ⟨id, some⟩

/-- One compilation. -/
def someFlightKey : FlightKey := ⟨"rustc", "abc123"⟩

/-- A stale lock file and nothing else. -/
def staleFlight : FlightState ℕ FlightRecord where
  disk := ⟨some 0, fun _ => none, fun _ => none, 1⟩
  stale _ := true
  record := none
  recordStale := false
  attempt := none
  attemptStale := false
  phase _ := .idle

private theorem staleFlight_initial : staleFlight.Initial :=
  ⟨fun _ => rfl, fun _ => rfl, fun _ => rfl, fun i h => by
    rw [← Option.some.inj h]
    exact Nat.one_pos⟩

/-- The first process flies on the stale lock file, and the second one waits. -/
theorem quietFlights_unique_waiting :
    ∃ s : FlightState ℕ FlightRecord,
      Runs.Reachable FlightState.Initial (QuietFlightStep plainFlightCodec someFlightKey) s ∧
      (s.phase 1).Holds ∧ s.phase 2 = .polling 0 ∧ ∀ q, (s.phase q).Holds → q = 1 := by
  have hstart : Runs.Reachable FlightState.Initial
      (QuietFlightStep plainFlightCodec someFlightKey) staleFlight := .start staleFlight_initial
  have hopening := hstart.next ⟨1, .start rfl, Or.inr fun _ h => h⟩
  have harriving := hopening.next ⟨1, .openLock rfl rfl, Or.inr fun _ h => h⟩
  have hentered := harriving.next ⟨1, .tryLock rfl rfl, Or.inr fun _ h => h⟩
  have hinspecting := hentered.next ⟨1, .readAttempt rfl, Or.inr fun _ h => h⟩
  have hestablishing := hinspecting.next ⟨1, .readRecord rfl, Or.inr fun _ h => h⟩
  have hflying := hestablishing.next ⟨1, .establish "first" rfl, Or.inr fun _ h => h⟩
  have hopening' := hflying.next ⟨2, .start rfl, Or.inr fun _ h => h⟩
  have harriving' := hopening'.next ⟨2, .openLock rfl rfl, Or.inr fun _ h => h⟩
  have hpolling := harriving'.next
    ⟨2, .wait rfl (Option.some_ne_none (1 : ℕ)), Or.inr fun _ h => h⟩
  exact ⟨_, hpolling, rfl, rfl, fun q hq => quietFlights_unique hpolling q 1 hq rfl⟩

/-- Process 1 opens the stale lock file while the sweep, process 0, holds its lock,
and polls until the sweep closes it. The sweep then unlinks the file, process 2
creates another one, and both hold a flight. -/
theorem flightReachable_shared :
    ∃ s : FlightState ℕ FlightRecord,
      Runs.Reachable FlightState.Initial (FlightStepAny plainFlightCodec someFlightKey) s ∧
      (s.phase 1).Holds ∧ (s.phase 2).Holds := by
  have hstart : Runs.Reachable FlightState.Initial
      (FlightStepAny plainFlightCodec someFlightKey) staleFlight := .start staleFlight_initial
  have hsweeping := hstart.next ⟨0, .findStale rfl rfl rfl (fun h => by cases h)⟩
  have htrying := hsweeping.next ⟨0, .sweepOpen rfl rfl⟩
  have hclearing := htrying.next ⟨0, .claim rfl rfl⟩
  have hopening := hclearing.next ⟨1, .start rfl⟩
  have harriving := hopening.next ⟨1, .openLock rfl rfl⟩
  have hpolling := harriving.next ⟨1, .wait rfl (Option.some_ne_none (0 : ℕ))⟩
  have hcleared := hpolling.next ⟨0, .clearRecord rfl⟩
  have hclosing := hcleared.next ⟨0, .clearAttempt rfl⟩
  have hunlinking := hclosing.next ⟨0, .close rfl⟩
  have hentered := hunlinking.next ⟨1, .poll rfl rfl⟩
  have hunlinked := hentered.next ⟨0, .unlink rfl⟩
  have hinspecting := hunlinked.next ⟨1, .readAttempt rfl⟩
  have hestablishing := hinspecting.next ⟨1, .readRecord rfl⟩
  have hflying := hestablishing.next ⟨1, .establish "first" rfl⟩
  -- The path names nothing now, so the next process locks a file of its own.
  have hopening' := hflying.next ⟨2, .start rfl⟩
  have harriving' := hopening'.next ⟨2, .createLock rfl rfl⟩
  have hentered' := harriving'.next ⟨2, .tryLock rfl rfl⟩
  have hinspecting' := hentered'.next ⟨2, .readAttempt rfl⟩
  have hestablishing' := hinspecting'.next ⟨2, .readRecord rfl⟩
  have hflying' := hestablishing'.next ⟨2, .establish "second" rfl⟩
  exact ⟨_, hflying', rfl, rfl⟩

end MrBoxington.Scheduler
