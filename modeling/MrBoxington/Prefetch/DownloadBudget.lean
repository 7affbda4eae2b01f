import MrBoxington.Lib.KeyedTotals
import MrBoxington.Lib.Runs
import MrBoxington.Lib.U64

/-!
# The budget of remote downloads

Tasks share one atomic counter of the bytes they may download. A reservation is taken by a
compare-and-exchange loop, which goes on from the value it observed last; it is committed with
the bytes that were downloaded, or dropped. Between any two atomic operations the counter holds
the committed bytes and those of the outstanding reservations.
-/

namespace MrBoxington.Prefetch

/-- Why a reservation is refused. -/
inductive BudgetError where
  | overflowed
  | exceeded (bytes current limit : UInt64)
deriving DecidableEq

def BudgetError.message : BudgetError → String
  | .overflowed => "remote cache download budget overflowed"
  | .exceeded bytes current limit =>
    "remote cache download budget exceeded: " ++ toString bytes ++ " bytes requested with " ++
      toString current ++ " of " ++ toString limit ++ " bytes already used"

structure RemoteDownloadReservation where
  reserved : UInt64
  committed : Bool := false
deriving DecidableEq

/-- Which of the two functions takes a reservation, and how much it asks for. -/
inductive Reserve where
  | reserveRemoteDownload (bytes : UInt64)
  | reserveRemoteDownloadUpTo (requested : UInt64)
deriving DecidableEq

/-- One round of a loop: what would be reserved on top of the value the task knows, and the
value to exchange it for. -/
def Reserve.attempt (limit current : UInt64) : Reserve → Except BudgetError (UInt64 × UInt64)
  | .reserveRemoteDownload bytes =>
    match U64.checkedAdd current bytes with
    | none => .error .overflowed
    | some next =>
      if limit < next then .error (.exceeded bytes current limit) else .ok (bytes, next)
  | .reserveRemoteDownloadUpTo requested =>
    let room := U64.saturatingSub limit current
    let reserved := if requested ≤ room then requested else room
    .ok (reserved, current + reserved)

/-- The counter after a commit, which gives back what was not downloaded. -/
def RemoteDownloadReservation.commit (reservation : RemoteDownloadReservation)
    (counter bytes : UInt64) : UInt64 × RemoteDownloadReservation :=
  (counter - U64.saturatingSub reservation.reserved bytes, { reservation with committed := true })

/-- The counter after a drop, which comes after a commit too. -/
def RemoteDownloadReservation.drop (reservation : RemoteDownloadReservation) (counter : UInt64) :
    UInt64 :=
  if reservation.committed then counter else counter - reservation.reserved

/-- Where a task is. -/
inductive Download where
  | idle
  /-- The task knows a value of the counter, and is about to exchange it. -/
  | reserving (reserve : Reserve) (current : UInt64)
  | holding (reservation : RemoteDownloadReservation)
deriving DecidableEq

/-- The bytes of an outstanding reservation. -/
def Download.outstanding : Download → ℕ
  | .holding reservation => if reservation.committed then 0 else reservation.reserved.toNat
  | _ => 0

def outstanding (tasks : List Download) : ℕ :=
  Keyed.total Download.outstanding tasks

/-- The counter and the tasks; `committed` only records what was committed so far. -/
structure Budget where
  counter : UInt64
  committed : ℕ
  tasks : List Download

def Budget.initial : Budget := ⟨0, 0, []⟩

/-- One atomic operation of one task. -/
inductive BudgetStep (limit : UInt64) : Budget → Budget → Prop
  | spawn (budget : Budget) :
      BudgetStep limit budget { budget with tasks := budget.tasks ++ [.idle] }
  | load {budget : Budget} {i : ℕ} (htask : budget.tasks[i]? = some .idle) (reserve : Reserve) :
      BudgetStep limit budget
        { budget with tasks := budget.tasks.set i (.reserving reserve budget.counter) }
  | refuse {budget : Budget} {i : ℕ} {reserve : Reserve} {current : UInt64} {error : BudgetError}
      (htask : budget.tasks[i]? = some (.reserving reserve current))
      (hattempt : reserve.attempt limit current = .error error) :
      BudgetStep limit budget { budget with tasks := budget.tasks.set i .idle }
  | exchange {budget : Budget} {i : ℕ} {reserve : Reserve} {current reserved next : UInt64}
      (htask : budget.tasks[i]? = some (.reserving reserve current))
      (hattempt : reserve.attempt limit current = .ok (reserved, next))
      (hsame : budget.counter = current) :
      BudgetStep limit budget { budget with
        counter := next, tasks := budget.tasks.set i (.holding { reserved }) }
  /-- The exchange fails; a weak one may fail on the value it expects. -/
  | observe {budget : Budget} {i : ℕ} {reserve : Reserve} {current reserved next : UInt64}
      (htask : budget.tasks[i]? = some (.reserving reserve current))
      (hattempt : reserve.attempt limit current = .ok (reserved, next)) :
      BudgetStep limit budget
        { budget with tasks := budget.tasks.set i (.reserving reserve budget.counter) }
  | commit {budget : Budget} {i : ℕ} {reservation : RemoteDownloadReservation} {bytes : UInt64}
      (htask : budget.tasks[i]? = some (.holding reservation))
      (hopen : reservation.committed = false) (hbytes : bytes ≤ reservation.reserved) :
      BudgetStep limit budget {
        counter := (reservation.commit budget.counter bytes).1
        committed := budget.committed + bytes.toNat
        tasks := budget.tasks.set i (.holding (reservation.commit budget.counter bytes).2) }
  | drop {budget : Budget} {i : ℕ} {reservation : RemoteDownloadReservation}
      (htask : budget.tasks[i]? = some (.holding reservation)) :
      BudgetStep limit budget { budget with
        counter := reservation.drop budget.counter, tasks := budget.tasks.set i .idle }

/-! ## One operation -/

/-- A task that goes on changes the outstanding bytes by its own. -/
theorem outstanding_set {tasks : List Download} {i : ℕ} {task : Download}
    (htask : tasks[i]? = some task) (next : Download) :
    outstanding (tasks.set i next) + task.outstanding =
      outstanding tasks + next.outstanding := by
  induction tasks generalizing i with
  | nil => cases htask
  | cons head tasks ih =>
    cases i with
    | zero =>
      obtain rfl : head = task := Option.some.inj htask
      simp only [outstanding, List.set_cons_zero, Keyed.total_cons]
      omega
    | succ i =>
      have hrest := ih (show tasks[i]? = some task from htask)
      simp only [outstanding, List.set_cons_succ, Keyed.total_cons] at hrest ⊢
      omega

private theorem outstanding_le {tasks : List Download} {task : Download} (hmem : task ∈ tasks) :
    task.outstanding ≤ outstanding tasks := by
  obtain ⟨i, htask⟩ := List.mem_iff_getElem?.mp hmem
  have hset := outstanding_set htask .idle
  simp only [Download.outstanding] at hset ⊢
  omega

/-- From a value within the limit a round adds exactly what it reserves, and stays within. -/
theorem Reserve.attempt_spec {limit current reserved next : UInt64} {reserve : Reserve}
    (hattempt : reserve.attempt limit current = .ok (reserved, next))
    (hcurrent : current.toNat ≤ limit.toNat) :
    next.toNat = current.toNat + reserved.toNat ∧ next.toNat ≤ limit.toNat := by
  cases reserve with
  | reserveRemoteDownload bytes =>
    simp only [Reserve.attempt] at hattempt
    split at hattempt
    · cases hattempt
    · rename_i sum hsum
      split at hattempt
      · cases hattempt
      · rename_i hwithin
        obtain ⟨rfl, rfl⟩ := Prod.mk.inj (Except.ok.inj hattempt)
        rw [UInt64.lt_iff_toNat_lt] at hwithin
        have hexact := U64.checkedAdd_eq_some.mp hsum
        omega
  | reserveRemoteDownloadUpTo requested =>
    obtain ⟨hreserved, rfl⟩ := Prod.mk.inj (Except.ok.inj hattempt)
    have hroom : reserved.toNat ≤ limit.toNat - current.toNat := by
      rw [← U64.toNat_saturatingSub, ← hreserved]
      split
      · rename_i hle
        exact UInt64.le_iff_toNat_le.mp hle
      · exact Nat.le_refl _
    have hlimit := limit.toNat_lt
    rw [hreserved, UInt64.toNat_add, Nat.mod_eq_of_lt (by omega)]
    omega

/-- What is given back of a reservation is part of the counter. -/
theorem toNat_sub {counter amount : UInt64} (hle : amount.toNat ≤ counter.toNat) :
    (counter - amount).toNat = counter.toNat - amount.toNat :=
  UInt64.toNat_sub_of_le _ _ (UInt64.le_iff_toNat_le.mpr hle)

/-! ## Any interleaving -/

/-- The counter holds what is committed and outstanding, within the limit, and no task knows a
value past the limit. -/
structure Balanced (limit : UInt64) (budget : Budget) : Prop where
  exact : budget.counter.toNat = budget.committed + outstanding budget.tasks
  within : budget.counter.toNat ≤ limit.toNat
  known : ∀ reserve current, .reserving reserve current ∈ budget.tasks →
    current.toNat ≤ limit.toNat

section Steps

variable {limit : UInt64} {budget budget' : Budget} {task next : Download} {i : ℕ}

/-- A held reservation is part of the counter. -/
theorem Balanced.outstanding_le (hbalanced : Balanced limit budget) (hmem : task ∈ budget.tasks) :
    task.outstanding ≤ budget.counter.toNat := by
  have htask := Prefetch.outstanding_le hmem
  have hexact := hbalanced.exact
  omega

/-- A task goes on, and the counter changes by what the task commits and holds. -/
theorem Balanced.replace (hbalanced : Balanced limit budget)
    (htask : budget.tasks[i]? = some task) {counter : UInt64} {committed : ℕ}
    (hexact : counter.toNat + budget.committed + task.outstanding =
      budget.counter.toNat + committed + next.outstanding)
    (hwithin : counter.toNat ≤ limit.toNat)
    (hknown : ∀ reserve current, next = .reserving reserve current →
      current.toNat ≤ limit.toNat) :
    Balanced limit ⟨counter, committed, budget.tasks.set i next⟩ where
  exact := by
    have hsum := outstanding_set htask next
    have hbefore := hbalanced.exact
    dsimp only
    omega
  within := hwithin
  known reserve current hmem := by
    rcases List.mem_or_eq_of_mem_set hmem with hmem | heq
    · exact hbalanced.known reserve current hmem
    · exact hknown reserve current heq.symm

private theorem Balanced.step (hbalanced : Balanced limit budget)
    (hstep : BudgetStep limit budget budget') : Balanced limit budget' := by
  have hwithin := hbalanced.within
  cases hstep with
  | spawn =>
    refine ⟨?_, hwithin, fun reserve current hmem => ?_⟩
    · simpa [outstanding, Keyed.total_append, Download.outstanding] using hbalanced.exact
    · exact hbalanced.known reserve current (by simpa using hmem)
  | load htask reserve =>
    refine hbalanced.replace htask rfl hwithin fun _ _ heq => ?_
    obtain ⟨-, rfl⟩ := Download.reserving.inj heq
    exact hwithin
  | refuse htask _ => exact hbalanced.replace htask rfl hwithin (by rintro _ _ ⟨⟩)
  | exchange htask hattempt hsame =>
    subst hsame
    obtain ⟨hnext, hlimit⟩ := Reserve.attempt_spec hattempt hwithin
    refine hbalanced.replace htask ?_ hlimit (by rintro _ _ ⟨⟩)
    simp only [Download.outstanding, Bool.false_eq_true, if_false]
    omega
  | observe htask _ =>
    refine hbalanced.replace htask rfl hwithin fun _ _ heq => ?_
    obtain ⟨-, rfl⟩ := Download.reserving.inj heq
    exact hwithin
  | @commit _ reservation bytes htask hopen hbytes =>
    have hheld := hbalanced.outstanding_le (List.mem_of_getElem? htask)
    rw [Download.outstanding, hopen, if_neg Bool.false_ne_true] at hheld
    have hle := UInt64.le_iff_toNat_le.mp hbytes
    have hrest := U64.toNat_saturatingSub reservation.reserved bytes
    have hsub := @toNat_sub budget.counter (U64.saturatingSub reservation.reserved bytes) (by omega)
    refine hbalanced.replace htask ?_ ?_ (by rintro _ _ ⟨⟩)
    · simp only [Download.outstanding, RemoteDownloadReservation.commit, hopen,
        Bool.false_eq_true, if_false, if_true]
      omega
    · simp only [RemoteDownloadReservation.commit]
      omega
  | @drop _ reservation htask =>
    cases hcommitted : reservation.committed with
    | true =>
      simp only [RemoteDownloadReservation.drop, hcommitted, if_true]
      refine hbalanced.replace htask ?_ hwithin (by rintro _ _ ⟨⟩)
      simp only [Download.outstanding, hcommitted, if_true]
    | false =>
      have hheld := hbalanced.outstanding_le (List.mem_of_getElem? htask)
      rw [Download.outstanding, hcommitted, if_neg Bool.false_ne_true] at hheld
      have hsub := toNat_sub hheld
      simp only [RemoteDownloadReservation.drop, hcommitted, Bool.false_eq_true, if_false]
      refine hbalanced.replace htask ?_ (by omega) (by rintro _ _ ⟨⟩)
      simp only [Download.outstanding, hcommitted, Bool.false_eq_true, if_false]
      omega

end Steps

/-- No operation that a task can do next wraps the counter around: what a reservation gives back
is part of the counter, and what a round adds fits into a word. -/
def NeverWraps (limit : UInt64) (budget : Budget) : Prop :=
  ∀ task ∈ budget.tasks, task.outstanding ≤ budget.counter.toNat ∧
    ∀ reserve current reserved next, task = .reserving reserve current →
      reserve.attempt limit current = .ok (reserved, next) →
        next.toNat = current.toNat + reserved.toNat

/-- After any interleaving the counter holds exactly the committed bytes and those of the
outstanding reservations, does not wrap around and is within the limit. -/
theorem download_budget_exact (limit : UInt64) (budget : Budget)
    (hreach : Runs.Reachable (· = Budget.initial) (BudgetStep limit) budget) :
    budget.counter.toNat = budget.committed + outstanding budget.tasks ∧
      NeverWraps limit budget ∧ budget.counter.toNat ≤ limit.toNat := by
  have hbalanced : Balanced limit budget := by
    refine hreach.invariant ?_ fun _ _ hbalanced hstep => hbalanced.step hstep
    rintro _ rfl
    exact ⟨rfl, Nat.zero_le _, by simp [Budget.initial]⟩
  refine ⟨hbalanced.exact, fun task hmem => ?_, hbalanced.within⟩
  refine ⟨hbalanced.outstanding_le hmem, ?_⟩
  rintro reserve current reserved next rfl hattempt
  exact (Reserve.attempt_spec hattempt (hbalanced.known reserve current hmem)).1

/-- Two tasks within ten bytes: the second loses a race, reserves the four bytes that are left
and holds them while the first commits five of its six. -/
theorem reachable_contended :
    Runs.Reachable (· = Budget.initial) (BudgetStep 10)
      ⟨9, 5, [.holding ⟨6, true⟩, .holding ⟨4, false⟩]⟩ := by
  have hinitial : Runs.Reachable (· = Budget.initial) (BudgetStep 10) Budget.initial := .start rfl
  have hspawned : Runs.Reachable (· = Budget.initial) (BudgetStep 10) ⟨0, 0, [.idle, .idle]⟩ :=
    (hinitial.next (.spawn _)).next (.spawn _)
  have hloaded : Runs.Reachable (· = Budget.initial) (BudgetStep 10)
      ⟨0, 0, [.reserving (.reserveRemoteDownload 6) 0,
        .reserving (.reserveRemoteDownloadUpTo 8) 0]⟩ :=
    (hspawned.next (.load (i := 0) rfl _)).next (.load (i := 1) rfl _)
  have hobserved : Runs.Reachable (· = Budget.initial) (BudgetStep 10)
      ⟨6, 0, [.holding ⟨6, false⟩, .reserving (.reserveRemoteDownloadUpTo 8) 6]⟩ :=
    (hloaded.next (.exchange (i := 0) rfl rfl rfl)).next (.observe (i := 1) rfl rfl)
  have hreserved : Runs.Reachable (· = Budget.initial) (BudgetStep 10)
      ⟨10, 0, [.holding ⟨6, false⟩, .holding ⟨4, false⟩]⟩ :=
    hobserved.next (.exchange (i := 1) rfl rfl rfl)
  have hbytes : (5 : UInt64) ≤ 6 := by decide
  have hcommitted := hreserved.next (.commit (i := 0) rfl rfl hbytes)
  exact hcommitted

theorem download_budget_exact_contended :
    (9 : UInt64).toNat = 5 + outstanding [.holding ⟨6, true⟩, .holding ⟨4, false⟩] ∧
      NeverWraps 10 ⟨9, 5, [.holding ⟨6, true⟩, .holding ⟨4, false⟩]⟩ ∧
        (9 : UInt64).toNat ≤ (10 : UInt64).toNat :=
  download_budget_exact 10 _ reachable_contended

end MrBoxington.Prefetch
