import MrBoxington.Lib.KeyedTotals
import MrBoxington.Lib.LockedUpdate
import MrBoxington.Lib.U64

/-!
# What has been saved on a machine

Each command adds what it contributed to running totals beside the store, under a lock and
by replacing the whole file. Counters saturate; those that a newer version wrote are carried
through. A file that cannot be read counts as a fresh start, also when it holds a tally.
-/

namespace MrBoxington.Savings

/-- The totals of a tally. -/
inductive Counter where
  | builds
  | cachedCompilations
  | avoidedCompilerNs
  | reflinkedBytes
  | freedTargetBytes
  | freedStoreBytes
  | autoPrunedBytes
  | freedRequestedBytes
deriving DecidableEq

/-- What the cache did with compilations, and the time of those that ran. -/
inductive OutcomeCounter where
  | hits
  | misses
  | unconsulted
  | bypasses
  | verifications
  | incremental
  | missCompilerNs
  | unconsultedCompilerNs
  | bypassCompilerNs
  | verificationCompilerNs
deriving DecidableEq

/-- Compilations by outcome, counted from `sinceSecs`. `J` is a value of the file that this
version does not know. -/
structure Outcomes (J : Type) where
  sinceSecs : UInt64
  counts : OutcomeCounter → UInt64
  unknown : List (String × J)

structure Tally (J : Type) where
  version : UInt8
  sinceSecs : UInt64
  totals : Counter → UInt64
  autoPrunedSinceSecs : UInt64
  outcomes : Outcomes J
  unknown : List (String × J)

/-- What one command contributed. -/
structure Delta (J : Type) where
  totals : Counter → UInt64
  outcomes : Outcomes J

variable {J : Type}

/-- The tally of a fresh start. -/
def Tally.default : Tally J := ⟨0, 0, fun _ => 0, 0, ⟨0, fun _ => 0, []⟩, []⟩

def tallyVersion : UInt8 := 1

def Outcomes.countsAnything (outcomes : Outcomes J) : Bool :=
  outcomes.counts .hits ||| outcomes.counts .misses ||| outcomes.counts .unconsulted |||
    outcomes.counts .bypasses ||| outcomes.counts .verifications |||
    outcomes.counts .incremental != 0

def Outcomes.add (outcomes other : Outcomes J) : Outcomes J :=
  { outcomes with
    counts := fun counter => U64.saturatingAdd (outcomes.counts counter) (other.counts counter) }

/-- The clock, each time that a record asks for it. -/
structure Clock where
  first : UInt64
  second : UInt64
  third : UInt64

/-- The dates from which the totals count, where they have none yet. -/
def Tally.dated (tally : Tally J) (delta : Delta J) (now : Clock) : Tally J :=
  let tally :=
    if tally.version = 0 then { tally with version := tallyVersion, sinceSecs := now.first }
    else tally
  let tally :=
    if tally.autoPrunedSinceSecs = 0 then { tally with autoPrunedSinceSecs := now.second }
    else tally
  if delta.outcomes.countsAnything ∧ tally.outcomes.sinceSecs = 0 then
    { tally with outcomes := { tally.outcomes with sinceSecs := now.third } }
  else tally

/-- The tally with what a command contributed. -/
def Tally.recorded (tally : Tally J) (delta : Delta J) (now : Clock) : Tally J :=
  let tally := tally.dated delta now
  { tally with
    outcomes := tally.outcomes.add delta.outcomes
    totals := fun counter => U64.saturatingAdd (tally.totals counter) (delta.totals counter) }

/-- A tally file: what it holds, or nothing if it is missing or is no tally. -/
abbrev File (J : Type) := Option (Tally J)

/-- One call of `record`: what it adds, the clock, and whether the system lets it read the
file. -/
structure Call (J : Type) where
  delta : Delta J
  now : Clock
  readable : Bool

/-- A file that cannot be read or parsed is taken for a fresh start. -/
def read (readable : Bool) (file : File J) : Tally J :=
  if readable then file.getD Tally.default else Tally.default

/-- What a command makes of the file under the lock. -/
def record (call : Call J) (file : File J) : File J :=
  some ((read call.readable file).recorded call.delta call.now)

section Fields

variable (tally : Tally J) (delta : Delta J) (now : Clock)

@[simp] private theorem Tally.dated_totals : (tally.dated delta now).totals = tally.totals := by
  unfold Tally.dated
  dsimp only
  split_ifs <;> rfl

@[simp] private theorem Tally.dated_counts :
    (tally.dated delta now).outcomes.counts = tally.outcomes.counts := by
  unfold Tally.dated
  dsimp only
  split_ifs <;> rfl

@[simp] private theorem Tally.dated_unknown : (tally.dated delta now).unknown = tally.unknown ∧
    (tally.dated delta now).outcomes.unknown = tally.outcomes.unknown := by
  unfold Tally.dated
  dsimp only
  split_ifs <;> exact ⟨rfl, rfl⟩

/-- A date that is set stays. -/
theorem Tally.dated_keeps :
    (tally.version ≠ 0 → (tally.dated delta now).version = tally.version ∧
      (tally.dated delta now).sinceSecs = tally.sinceSecs) ∧
    (tally.autoPrunedSinceSecs ≠ 0 →
      (tally.dated delta now).autoPrunedSinceSecs = tally.autoPrunedSinceSecs) ∧
    (tally.outcomes.sinceSecs ≠ 0 →
      (tally.dated delta now).outcomes.sinceSecs = tally.outcomes.sinceSecs) := by
  unfold Tally.dated
  dsimp only
  split_ifs <;> simp_all

end Fields

/-- What a tally keeps of an earlier one, after the deltas that were added to it. -/
structure Follows (first : Tally J) (calls : List (Call J)) (tally : Tally J) : Prop where
  totals : ∀ counter, (tally.totals counter).toNat = min 18446744073709551615
    ((first.totals counter).toNat +
      Keyed.total (fun call : Call J => (call.delta.totals counter).toNat) calls)
  counts : ∀ counter, (tally.outcomes.counts counter).toNat = min 18446744073709551615
    ((first.outcomes.counts counter).toNat +
      Keyed.total (fun call : Call J => (call.delta.outcomes.counts counter).toNat) calls)
  unknown : tally.unknown = first.unknown ∧ tally.outcomes.unknown = first.outcomes.unknown
  since : first.version ≠ 0 → tally.version = first.version ∧ tally.sinceSecs = first.sinceSecs
  autoPrunedSince : first.autoPrunedSinceSecs ≠ 0 →
    tally.autoPrunedSinceSecs = first.autoPrunedSinceSecs
  outcomesSince : first.outcomes.sinceSecs ≠ 0 →
    tally.outcomes.sinceSecs = first.outcomes.sinceSecs

theorem Follows.refl (first : Tally J) : Follows first [] first where
  totals counter := by simp [U64.toNat_le_max]
  counts counter := by simp [U64.toNat_le_max]
  unknown := ⟨rfl, rfl⟩
  since _ := ⟨rfl, rfl⟩
  autoPrunedSince _ := rfl
  outcomesSince _ := rfl

/-- One more record adds its delta and keeps the rest. -/
theorem Follows.recorded {first tally : Tally J} {calls : List (Call J)}
    (hfollows : Follows first calls tally) (call : Call J) :
    Follows first (call :: calls) (tally.recorded call.delta call.now) where
  totals counter := by
    have htotal := hfollows.totals counter
    simp only [Tally.recorded, Tally.dated_totals, U64.toNat_saturatingAdd, Keyed.total_cons]
    omega
  counts counter := by
    have hcount := hfollows.counts counter
    simp only [Tally.recorded, Outcomes.add, Tally.dated_counts, U64.toNat_saturatingAdd,
      Keyed.total_cons]
    omega
  unknown := by
    obtain ⟨hunknown, houtcomes⟩ := tally.dated_unknown call.delta call.now
    exact ⟨hunknown.trans hfollows.unknown.1, houtcomes.trans hfollows.unknown.2⟩
  since hversion := by
    obtain ⟨hsame, hsince⟩ := hfollows.since hversion
    have hkept := (tally.dated_keeps call.delta call.now).1 (hsame ▸ hversion)
    exact ⟨hkept.1.trans hsame, hkept.2.trans hsince⟩
  autoPrunedSince hset := by
    have hsame := hfollows.autoPrunedSince hset
    exact ((tally.dated_keeps call.delta call.now).2.1 (hsame ▸ hset)).trans hsame
  outcomesSince hset := by
    have hsame := hfollows.outcomesSince hset
    exact ((tally.dated_keeps call.delta call.now).2.2 (hsame ▸ hset)).trans hsame

/-- Of the calls that were written, newest first, those whose contributions are still counted:
all of them, or those from the last one on that could not read the file. -/
def counted : List (Call J) → List (Call J)
  | [] => []
  | call :: earlier => if call.readable then call :: counted earlier else [call]

/-- What the counted calls started from. -/
def countedFrom (start : File J) (calls : List (Call J)) : Tally J :=
  if calls.all Call.readable then start.getD Tally.default else Tally.default

private theorem counted_of_readable {calls : List (Call J)}
    (hreadable : calls.all Call.readable = true) : counted calls = calls := by
  induction calls with
  | nil => rfl
  | cons call earlier ih =>
    rw [List.all_cons, Bool.and_eq_true] at hreadable
    rw [counted, if_pos hreadable.1, ih hreadable.2]

private theorem follows_foldr (start : File J) (calls : List (Call J)) :
    Follows (countedFrom start calls) (counted calls)
      (read true (calls.foldr record start)) := by
  induction calls with
  | nil => exact .refl _
  | cons call earlier ih =>
    have hrecorded : read true ((call :: earlier).foldr record start) =
        (read call.readable (earlier.foldr record start)).recorded call.delta call.now := rfl
    rw [hrecorded, counted, countedFrom, List.all_cons]
    cases call.readable with
    | true => exact ih.recorded call
    | false => exact (Follows.refl Tally.default).recorded call

variable {π : Type} [DecidableEq π]

/-- However commands interleave, fail or die, the tally holds every contribution that was
written, each once, back to the last command that could not read the file, and all of them if
each could: every counter is the sum, up to saturation. Unknown counters and the dates from
which it counts are kept, and each command was returned such a tally, of the contributions
written up to its own. -/
theorem tally_counts_every_record {start : File J}
    {s : LockedUpdate.Shared (File J) (Call J) π}
    (hreach : Runs.Reachable (LockedUpdate.Initial start) (LockedUpdate.Step record) s) :
    Follows (countedFrom start s.committed) (counted s.committed) (read true s.value) ∧
      (s.committed.all Call.readable = true → counted s.committed = s.committed) ∧
      ∀ p result, s.phase p = .returned result → ∃ calls, calls ≠ [] ∧ calls <:+ s.committed ∧
        Follows (countedFrom start calls) (counted calls) (read true result) := by
  obtain ⟨hvalue, hreturned⟩ := LockedUpdate.sequential hreach
  refine ⟨hvalue ▸ follows_foldr start s.committed, counted_of_readable, fun p result hresult => ?_⟩
  obtain ⟨call, earlier, hsuffix, rfl⟩ := hreturned p result hresult
  exact ⟨call :: earlier, by simp, hsuffix, follows_foldr start (call :: earlier)⟩

/-- A command that records one build. -/
def oneBuild (readable : Bool) : Call Empty :=
  ⟨⟨fun counter => if counter = .builds then 1 else 0, ⟨0, fun _ => 0, []⟩⟩, ⟨5, 5, 5⟩, readable⟩

/-- Three commands record a build each under the lock. The second cannot read the file, and
what the first one wrote is lost. -/
theorem tally_counts_every_record_unread :
    Follows Tally.default [oneBuild true, oneBuild false]
      (read true (record (oneBuild true) (record (oneBuild false) (record (oneBuild true) none))))
        := by
  have hidle : Runs.Reachable (LockedUpdate.Initial (none : File Empty))
      (LockedUpdate.Step record)
      (⟨none, none, fun _ => .idle, []⟩ : LockedUpdate.Shared _ _ ℕ) :=
    .start ⟨rfl, rfl, fun _ => rfl, rfl⟩
  have hfirst := ((((hidle.next (.ask _ 0 (oneBuild true) rfl)).next (.lock _ 0 _ rfl rfl)).next
    (.read _ 0 _ rfl)).next (.write _ 0 _ none rfl)).next (.unlock _ 0 _ rfl)
  have hsecond := ((((hfirst.next (.ask _ 1 (oneBuild false) rfl)).next (.lock _ 1 _ rfl rfl)).next
    (.read _ 1 _ rfl)).next (.write _ 1 _ _ rfl)).next (.unlock _ 1 _ rfl)
  have hthird := (((hsecond.next (.ask _ 2 (oneBuild true) rfl)).next (.lock _ 2 _ rfl rfl)).next
    (.read _ 2 _ rfl)).next (.write _ 2 _ _ rfl)
  exact (tally_counts_every_record hthird).1

end MrBoxington.Savings
