import MrBoxington.Lib.U64
import MrBoxington.Lib.SubsetSums

/-!
# Letting a request pass older waiters

A request may be admitted ahead of older waiters only when no order in which
the running leases finish could make any of them wait longer for it. The check
computes, for each older waiter, a lower bound on the room that is left once
that waiter first fits, from the sums of all subsets of the charges before it.
Charges are rounded up to a quantum, so the bound subtracts the rounding error.
-/

namespace MrBoxington.Scheduler

/-- The sum of a list of words, as a natural number. -/
def total (charges : List UInt64) : ℕ := (charges.map UInt64.toNat).sum

/-- Record the sums reached with one more weight, in place. -/
def addSubsetWeight (sums : List UInt64) (weight : ℕ) : List UInt64 :=
  Bitset.addShifted sums weight

/-- The number of packed sums a check may keep. -/
def maxBits : UInt64 := 65536

/-- The sum of all rounded charges, refused once it needs too many packed sums. -/
def quantizedTotal (unit : UInt64) (charges : List UInt64) : Option UInt64 :=
  charges.foldlM (fun sum w =>
    (U64.checkedAdd sum (U64.divCeil w unit)).filter (fun sum => decide (sum < maxBits))) 0

/-- The sum of all charges, refused on overflow. -/
def checkedTotal (charges : List UInt64) : Option UInt64 :=
  charges.foldlM (fun sum w => U64.checkedAdd sum w) 0

/-- A count converted to a word, refused when it does not fit. -/
def countWord (count : ℕ) : Option UInt64 :=
  if count < 2 ^ 64 then some (UInt64.ofNat count) else none

/-- A lower bound on the room left when the waiter whose prefix sum is `ahead`
first fits. `sums` packs the rounded subset sums of the `count` charges that may
complete before it. -/
def slackBound (unit free : UInt64) (count : ℕ) (ahead : UInt64) (sums : List UInt64) :
    Option UInt64 :=
  if ahead ≤ free then some (free - ahead)
  else
    let threshold := ahead - free
    (Bitset.firstAtLeast sums (U64.divCeil threshold unit).toNat).bind fun sum =>
    ((countWord count).bind (fun count => U64.checkedMul count (unit - 1))).bind fun error =>
    ((U64.checkedMul (UInt64.ofNat sum) unit).bind (fun sum => U64.checkedSub sum error)).bind
      fun lower => U64.checkedSub lower threshold

/-- The loop over the older waiters, oldest first. `ahead` sums the waiters
before the current one and `sums` packs the subset sums that include them. -/
def olderPass (unit free charge : UInt64) (liveCount : ℕ) :
    ℕ → UInt64 → List UInt64 → List UInt64 → Bool
  | _, _, _, [] => true
  | index, ahead, sums, h :: older =>
    match U64.checkedAdd ahead h with
    | none => false
    | some next =>
      match slackBound unit free (liveCount + index) next sums with
      | none => false
      | some slack =>
        if slack < charge then false
        else olderPass unit free charge liveCount (index + 1) next
          (addSubsetWeight sums (U64.divCeil h unit).toNat) older

/-- Whether `charge` may be admitted beside `live` ahead of the waiters `older`,
protecting every older prefix against every possible completion subset. -/
def passQuantized (capacity : UInt64) (live older : List UInt64) (charge unit : UInt64) : Bool :=
  if older.isEmpty then true
  else
    match quantizedTotal unit (live ++ older), checkedTotal live with
    | some all, some used =>
      match U64.checkedSub capacity used with
      | none => false
      | some free =>
        if free < charge then false
        else
          let sums := live.foldl (fun sums w => addSubsetWeight sums (U64.divCeil w unit).toNat)
            (SubsetSums.zeroOnly ((all.toNat + 1 + 63) / 64))
          olderPass unit free charge live.length 0 0 sums older
    | _, _ => false

/-- A charge in quanta, rounded up. -/
def quanta (unit w : UInt64) : ℕ := (U64.divCeil w unit).toNat

@[simp] theorem total_append (left right : List UInt64) :
    total (left ++ right) = total left + total right := by simp [total]

@[simp] theorem total_cons (w : UInt64) (charges : List UInt64) :
    total (w :: charges) = w.toNat + total charges := by simp [total]

@[simp] theorem total_nil : total [] = 0 := rfl

private theorem total_perm {left right : List UInt64} (hperm : left.Perm right) :
    total left = total right := (hperm.map UInt64.toNat).sum_eq

theorem total_le_of_sublist {part charges : List UInt64} (hsub : part.Sublist charges) :
    total part ≤ total charges := (hsub.map UInt64.toNat).sum_le_sum (by simp)

private theorem quanta_bounds {unit : UInt64} (hunit : 0 < unit.toNat) (w : UInt64) :
    w.toNat ≤ unit.toNat * quanta unit w ∧
      unit.toNat * quanta unit w ≤ w.toNat + (unit.toNat - 1) := by
  rw [quanta, U64.toNat_divCeil hunit]
  have hdiv := Nat.div_add_mod (w.toNat + unit.toNat - 1) unit.toNat
  have hmod := Nat.mod_lt (w.toNat + unit.toNat - 1) hunit
  omega

/-- Rounding up a whole list covers its sum and adds less than one quantum for
each charge. -/
theorem quanta_sum_bounds {unit : UInt64} (hunit : 0 < unit.toNat) (charges : List UInt64) :
    total charges ≤ unit.toNat * (charges.map (quanta unit)).sum ∧
      unit.toNat * (charges.map (quanta unit)).sum ≤
        total charges + charges.length * (unit.toNat - 1) := by
  induction charges with
  | nil => simp
  | cons w charges ih =>
    have hw := quanta_bounds hunit w
    rw [total_cons, List.map_cons, List.sum_cons, Nat.mul_add, List.length_cons, Nat.succ_mul]
    omega

private theorem checkedTotal_from {charges : List UInt64} {start used : UInt64}
    (h : charges.foldlM (fun sum w => U64.checkedAdd sum w) start = some used) :
    used.toNat = start.toNat + total charges := by
  induction charges generalizing start with
  | nil => simpa using congrArg UInt64.toNat (Option.some.inj h).symm
  | cons w charges ih =>
    rw [List.foldlM_cons] at h
    obtain ⟨next, hnext, hrest⟩ := Option.bind_eq_some_iff.mp h
    rw [U64.checkedAdd_eq_some] at hnext
    rw [ih hrest, total_cons]
    omega

/-- A checked total is the total. -/
theorem checkedTotal_eq {charges : List UInt64} {used : UInt64}
    (h : checkedTotal charges = some used) : used.toNat = total charges := by
  simpa using checkedTotal_from h

private theorem quantizedTotal_from {unit : UInt64} {charges : List UInt64} {start all : UInt64}
    (h : charges.foldlM (fun sum w =>
      (U64.checkedAdd sum (U64.divCeil w unit)).filter (fun sum => decide (sum < maxBits)))
        start = some all) :
    all.toNat = start.toNat + (charges.map (quanta unit)).sum := by
  induction charges generalizing start with
  | nil => simpa using congrArg UInt64.toNat (Option.some.inj h).symm
  | cons w charges ih =>
    rw [List.foldlM_cons] at h
    obtain ⟨next, hnext, hrest⟩ := Option.bind_eq_some_iff.mp h
    have hadd := (Option.filter_eq_some_iff.mp hnext).1
    rw [U64.checkedAdd_eq_some] at hadd
    rw [ih hrest, List.map_cons, List.sum_cons, quanta]
    omega

private theorem quantizedTotal_eq {unit all : UInt64} {charges : List UInt64}
    (h : quantizedTotal unit charges = some all) :
    all.toNat = (charges.map (quanta unit)).sum := by
  simpa using quantizedTotal_from h

/-- What the loop knows before it reaches a waiter: `sums` packs the rounded
subset sums of the live charges and of the waiters already passed. -/
structure PassState (unit : UInt64) (live done : List UInt64) (ahead : UInt64)
    (sums : List UInt64) : Prop where
  ahead_eq : ahead.toNat = total done
  /-- The packed sums are those of the charges that may complete first. -/
  packs : SubsetSums.Packs sums (SubsetSums.reachable ((live ++ done).map (quanta unit)))
  room : ((live ++ done).map (quanta unit)).sum < 64 * sums.length

/-- A set bit is the sum of some of the charges, in quanta. -/
theorem PassState.exists_chosen {unit ahead : UInt64} {live done sums : List UInt64} {sum : ℕ}
    (hstate : PassState unit live done ahead sums) (hbit : Bitset.testBit sums sum = true) :
    ∃ chosen : List UInt64, chosen.Sublist (live ++ done) ∧
      (chosen.map (quanta unit)).sum = sum := by
  have hreach := (hstate.packs sum (Bitset.lt_of_testBit hbit)).mp hbit
  obtain ⟨rounded, hsub, hsum⟩ := hreach
  obtain ⟨chosen, hchosen, rfl⟩ := List.sublist_map_iff.mp hsub
  exact ⟨chosen, hchosen, hsum⟩

/-- The sum of any of the charges has its bit set. -/
theorem PassState.testBit_quanta {unit ahead : UInt64} {live done sums finished : List UInt64}
    (hstate : PassState unit live done ahead sums) (hsub : finished.Subperm (live ++ done)) :
    Bitset.testBit sums (finished.map (quanta unit)).sum = true := by
  have hreach : (finished.map (quanta unit)).sum ∈
      SubsetSums.reachable ((live ++ done).map (quanta unit)) := by
    obtain ⟨chosen, hperm, hchosen⟩ := hsub
    exact ⟨chosen.map (quanta unit), hchosen.map _, (hperm.map _).sum_eq⟩
  have hle := SubsetSums.le_sum_of_mem_reachable hreach
  exact (hstate.packs _ (lt_of_le_of_lt hle hstate.room)).mpr hreach

private theorem slack_parts {unit threshold slack : UInt64} {count : ℕ} {sums : List UInt64}
    (hunit : 0 < unit.toNat)
    (hslack : ((Bitset.firstAtLeast sums (U64.divCeil threshold unit).toNat).bind fun sum =>
      ((countWord count).bind (fun count => U64.checkedMul count (unit - 1))).bind fun error =>
      ((U64.checkedMul (UInt64.ofNat sum) unit).bind (fun sum => U64.checkedSub sum error)).bind
        fun lower => U64.checkedSub lower threshold) = some slack) :
    ∃ (sum : ℕ) (error scaled lower : UInt64),
      Bitset.firstAtLeast sums (U64.divCeil threshold unit).toNat = some sum ∧
      error.toNat = count * (unit.toNat - 1) ∧ scaled.toNat ≤ unit.toNat * sum ∧
      scaled.toNat = error.toNat + lower.toNat ∧
      lower.toNat = threshold.toNat + slack.toNat := by
  obtain ⟨sum, hsum, hslack⟩ := Option.bind_eq_some_iff.mp hslack
  obtain ⟨error, herror, hslack⟩ := Option.bind_eq_some_iff.mp hslack
  obtain ⟨lower, hlower, hslack⟩ := Option.bind_eq_some_iff.mp hslack
  obtain ⟨word, hcount, hmul⟩ := Option.bind_eq_some_iff.mp herror
  obtain ⟨scaled, hscaled, hsub⟩ := Option.bind_eq_some_iff.mp hlower
  rw [U64.checkedMul_eq_some] at hmul hscaled
  rw [U64.checkedSub_eq_some] at hsub hslack
  refine ⟨sum, error, scaled, lower, hsum, ?_, ?_, hsub, hslack⟩
  · have hword : word.toNat = count := by
      unfold countWord at hcount
      split at hcount
      · rename_i hsmall
        rw [← Option.some.inj hcount, UInt64.toNat_ofNat_of_lt' hsmall]
      · exact absurd hcount (by simp)
    have hone : (unit - 1).toNat = unit.toNat - 1 :=
      UInt64.toNat_sub_of_le _ _ (UInt64.le_iff_toNat_le.mpr hunit)
    rw [← hmul, hword, hone]
  · have hsumWord : (UInt64.ofNat sum).toNat ≤ sum := Nat.mod_le _ _
    rw [← hscaled, Nat.mul_comm]
    exact Nat.mul_le_mul_left _ hsumWord

/-- The slack computed for a waiter is at most the room it leaves whenever the
completion of `finished` lets it fit. -/
theorem PassState.slackBound_le {unit free ahead next slack : UInt64}
    {live done sums finished : List UInt64} (hunit : 0 < unit.toNat)
    (hstate : PassState unit live done ahead sums) (hsub : finished.Subperm (live ++ done))
    (hslack : slackBound unit free (live.length + done.length) next sums = some slack)
    (hfit : next.toNat ≤ free.toNat + total finished) :
    next.toNat + slack.toNat ≤ free.toNat + total finished := by
  unfold slackBound at hslack
  split at hslack
  · rename_i hle
    have hle' := UInt64.le_iff_toNat_le.mp hle
    rw [← Option.some.inj hslack, UInt64.toNat_sub_of_le _ _ hle]
    omega
  · rename_i hgt
    have hlt : free.toNat < next.toNat := by
      have := UInt64.le_iff_toNat_le.not.mp hgt
      omega
    have hthreshold : (next - free).toNat = next.toNat - free.toNat :=
      UInt64.toNat_sub_of_le _ _ (UInt64.le_iff_toNat_le.mpr hlt.le)
    obtain ⟨sum, error, scaled, lower, hsum, herror, hscaled, hlower, hslack⟩ :=
      slack_parts hunit hslack
    -- The least packed sum above the threshold is at most the rounded sum of `finished`.
    have hquanta := quanta_sum_bounds hunit finished
    have hneeded : (U64.divCeil (next - free) unit).toNat ≤ (finished.map (quanta unit)).sum := by
      have hcover := (quanta_bounds hunit (next - free)).2
      rw [quanta] at hcover
      by_contra hlarge
      have hstep : unit.toNat * ((finished.map (quanta unit)).sum + 1) ≤
          unit.toNat * (U64.divCeil (next - free) unit).toNat :=
        Nat.mul_le_mul_left _ (by omega)
      rw [Nat.mul_add, Nat.mul_one] at hstep
      omega
    have hleast := (Bitset.firstAtLeast_isLeast hsum).2 ⟨hneeded, hstate.testBit_quanta hsub⟩
    have hscale : unit.toNat * sum ≤ unit.toNat * (finished.map (quanta unit)).sum :=
      Nat.mul_le_mul_left _ hleast
    have hlength : finished.length ≤ live.length + done.length := by
      simpa using hsub.length_le
    have herror' : finished.length * (unit.toNat - 1) ≤ error.toNat := by
      rw [herror]
      exact Nat.mul_le_mul_right _ hlength
    omega

/-- A waiter gets a slack only if the completion of everything before it would
let it fit. -/
theorem PassState.next_le {unit free ahead next slack : UInt64} {live done sums : List UInt64}
    (hunit : 0 < unit.toNat) (hstate : PassState unit live done ahead sums)
    (hslack : slackBound unit free (live.length + done.length) next sums = some slack) :
    next.toNat ≤ free.toNat + total (live ++ done) := by
  unfold slackBound at hslack
  split at hslack
  · rename_i hle
    have hle' := UInt64.le_iff_toNat_le.mp hle
    omega
  · rename_i hgt
    have hlt : free.toNat < next.toNat := by
      have := UInt64.le_iff_toNat_le.not.mp hgt
      omega
    have hthreshold : (next - free).toNat = next.toNat - free.toNat :=
      UInt64.toNat_sub_of_le _ _ (UInt64.le_iff_toNat_le.mpr hlt.le)
    obtain ⟨sum, error, scaled, lower, hsum, herror, hscaled, hlower, hslack⟩ :=
      slack_parts hunit hslack
    -- The packed sum is the rounded sum of some charges before the waiter.
    obtain ⟨chosen, hchosen, hsumEq⟩ := hstate.exists_chosen (Bitset.firstAtLeast_isLeast hsum).1.2
    have hquanta := quanta_sum_bounds hunit chosen
    rw [hsumEq] at hquanta
    have hlength : chosen.length ≤ live.length + done.length := by
      simpa using hchosen.length_le
    have herror' : chosen.length * (unit.toNat - 1) ≤ error.toNat := by
      rw [herror]
      exact Nat.mul_le_mul_right _ hlength
    have htotal := total_le_of_sublist hchosen
    omega

/-- The pass goes on behind a waiter that is passed. -/
theorem PassState.passed {unit ahead first next : UInt64} {live done older sums : List UInt64}
    (hstate : PassState unit live done ahead sums)
    (hroom : ((live ++ done ++ first :: older).map (quanta unit)).sum < 64 * sums.length)
    (hnext : ahead.toNat + first.toNat = next.toNat) :
    PassState unit live (done ++ [first]) next
      (addSubsetWeight sums (U64.divCeil first unit).toNat) := by
  refine ⟨by simp [← hnext, hstate.ahead_eq], ?_, ?_⟩
  · have hpacks := hstate.packs.addShifted (w := quanta unit first)
    simpa [quanta, addSubsetWeight] using hpacks
  · simp only [List.map_append, List.sum_append, List.map_cons, List.sum_cons,
      addSubsetWeight, Bitset.addShifted_length] at hroom ⊢
    simp only [List.map_nil, List.sum_nil]
    omega

private theorem olderPass_at {unit free charge : UInt64} {live done older sums : List UInt64}
    {ahead : UInt64} (hstate : PassState unit live done ahead sums)
    (hroom : ((live ++ done ++ older).map (quanta unit)).sum < 64 * sums.length)
    (hpass : olderPass unit free charge live.length done.length ahead sums older = true)
    {k : ℕ} {h : UInt64} (hk : older[k]? = some h) :
    ∃ ahead' sums' next slack, PassState unit live (done ++ older.take k) ahead' sums' ∧
      next.toNat = total (done ++ older.take k) + h.toNat ∧
      slackBound unit free (live.length + (done ++ older.take k).length) next sums' =
        some slack ∧
      charge.toNat ≤ slack.toNat := by
  induction older generalizing done ahead sums k with
  | nil => simp at hk
  | cons first older ih =>
    rw [olderPass] at hpass
    cases hnext : U64.checkedAdd ahead first with
    | none => simp [hnext] at hpass
    | some next =>
      simp only [hnext] at hpass
      rw [U64.checkedAdd_eq_some] at hnext
      cases hslack : slackBound unit free (live.length + done.length) next sums with
      | none => simp [hslack] at hpass
      | some slack =>
        simp only [hslack] at hpass
        split at hpass
        · exact absurd hpass (by simp)
        · rename_i hcharge
          cases k with
          | zero =>
            have hfirst : first = h := by simpa using hk
            subst hfirst
            refine ⟨ahead, sums, next, slack, by simpa using hstate,
              by simp [← hnext, hstate.ahead_eq],
              by simpa using hslack, ?_⟩
            have := UInt64.lt_iff_toNat_lt.not.mp hcharge
            omega
          | succ k =>
            have hstate' := hstate.passed hroom hnext
            have hlen : (done ++ [first]).length = done.length + 1 := by simp
            have hmore := ih hstate' (by simpa [addSubsetWeight] using hroom)
              (by rw [hlen]; exact hpass) (k := k) (by simpa using hk)
            simpa using hmore

/-- The pass starts with the live charges. -/
theorem PassState.start {unit all : UInt64} {live older : List UInt64}
    (hall : quantizedTotal unit (live ++ older) = some all) :
    PassState unit live [] 0 (live.foldl (fun sums w =>
        addSubsetWeight sums (U64.divCeil w unit).toNat)
          (SubsetSums.zeroOnly ((all.toNat + 1 + 63) / 64))) ∧
      ((live ++ [] ++ older).map (quanta unit)).sum <
        64 * (live.foldl (fun sums w => addSubsetWeight sums (U64.divCeil w unit).toNat)
          (SubsetSums.zeroOnly ((all.toNat + 1 + 63) / 64))).length := by
  have hall' := quantizedTotal_eq hall
  have hwords : ∀ ws sums : List UInt64,
      ws.foldl (fun sums w => addSubsetWeight sums (U64.divCeil w unit).toNat) sums =
        (ws.map (quanta unit)).foldl Bitset.addShifted sums := by
    intro ws sums
    rw [List.foldl_map]
    rfl
  rw [hwords]
  have hpacks := (SubsetSums.zeroOnly_packs ((all.toNat + 1 + 63) / 64)).foldl
    (live.map (quanta unit))
  have hlarge : ((live ++ [] ++ older).map (quanta unit)).sum <
      64 * ((live.map (quanta unit)).foldl Bitset.addShifted
        (SubsetSums.zeroOnly ((all.toNat + 1 + 63) / 64))).length := by
    rw [SubsetSums.foldl_addShifted_length, SubsetSums.zeroOnly_length, List.append_nil, ← hall']
    omega
  refine ⟨⟨rfl, by simpa using hpacks, ?_⟩, hlarge⟩
  simp only [List.append_nil, List.map_append, List.sum_append] at hlarge ⊢
  omega

/-- Where a successful check stands at each older waiter: the room it starts
from and the slack of the waiter at position `k`. -/
theorem passQuantized_at {capacity charge unit : UInt64} {live older : List UInt64}
    (hpass : passQuantized capacity live older charge unit = true)
    {k : ℕ} {h : UInt64} (hk : older[k]? = some h) :
    ∃ free ahead sums next slack, capacity.toNat = total live + free.toNat ∧
      charge.toNat ≤ free.toNat ∧
      PassState unit live (older.take k) ahead sums ∧
      next.toNat = total (older.take k) + h.toNat ∧
      slackBound unit free (live.length + (older.take k).length) next sums = some slack ∧
      charge.toNat ≤ slack.toNat := by
  have hne : older.isEmpty = false := by
    cases older with
    | nil => simp at hk
    | cons _ _ => rfl
  unfold passQuantized at hpass
  rw [hne] at hpass
  simp only [Bool.false_eq_true, if_false] at hpass
  cases hall : quantizedTotal unit (live ++ older) with
  | none => simp [hall] at hpass
  | some all =>
    cases hused : checkedTotal live with
    | none => simp [hall, hused] at hpass
    | some used =>
      simp only [hall, hused] at hpass
      cases hfree : U64.checkedSub capacity used with
      | none => simp [hfree] at hpass
      | some free =>
        simp only [hfree] at hpass
        split at hpass
        · exact absurd hpass (by simp)
        · rename_i hcharge
          rw [U64.checkedSub_eq_some, checkedTotal_eq hused] at hfree
          obtain ⟨hstate, hlarge⟩ := PassState.start hall
          obtain ⟨ahead, sums, next, slack, hat, hnext, hslack, hroom⟩ :=
            olderPass_at hstate hlarge hpass hk
          refine ⟨free, ahead, sums, next, slack, hfree, ?_, by simpa using hat,
            by simpa using hnext, by simpa using hslack, hroom⟩
          have := UInt64.lt_iff_toNat_lt.not.mp hcharge
          omega

/-- What is not kept makes up the rest of the total. -/
theorem exists_finished {kept charges : List UInt64} (hkept : kept.Subperm charges) :
    ∃ finished, finished.Subperm charges ∧ total kept + total finished = total charges := by
  obtain ⟨chosen, hperm, hsub⟩ := hkept
  obtain ⟨finished, hfinished⟩ := hsub.exists_perm_append
  refine ⟨finished, ?_, ?_⟩
  · exact (List.sublist_append_right chosen finished).subperm.trans hfinished.symm.subperm
  · rw [total_perm hfinished, total_append, total_perm hperm]

/-- Passing never delays an older waiter. Whatever part `stillLive` of the live
charges and `admitted` of the earlier waiters holds its charge at the moment the
waiter at position `k` fits, it still fits with the passing charge beside it. -/
theorem passQuantized_sound {capacity charge unit : UInt64} (hunit : 0 < unit.toNat)
    {live older : List UInt64} (hpass : passQuantized capacity live older charge unit = true)
    {k : ℕ} {h : UInt64} (hk : older[k]? = some h) {stillLive admitted : List UInt64}
    (hlive : stillLive.Subperm live) (hadmitted : admitted.Subperm (older.take k))
    (hfit : total stillLive + total admitted + h.toNat ≤ capacity.toNat) :
    total stillLive + total admitted + h.toNat + charge.toNat ≤ capacity.toNat := by
  obtain ⟨free, ahead, sums, next, slack, hcapacity, -, hstate, hnext, hslack, hcharge⟩ :=
    passQuantized_at hpass hk
  obtain ⟨doneLive, hdoneLive, hliveSum⟩ := exists_finished hlive
  obtain ⟨doneOlder, hdoneOlder, holderSum⟩ := exists_finished hadmitted
  have hdone : (doneLive ++ doneOlder).Subperm (live ++ older.take k) :=
    hdoneLive.append hdoneOlder
  have hdoneTotal := total_append doneLive doneOlder
  have hroom := hstate.slackBound_le hunit hdone hslack (by omega)
  omega

/-- No waiter is passed that would not fit an empty scope: such a waiter can
only start alone, and a charge beside it would hold it back. -/
theorem passQuantized_alone {capacity charge unit : UInt64} (hunit : 0 < unit.toNat)
    {live older : List UInt64} (hpass : passQuantized capacity live older charge unit = true)
    {k : ℕ} {h : UInt64} (hk : older[k]? = some h) : h.toNat ≤ capacity.toNat := by
  obtain ⟨free, ahead, sums, next, slack, hcapacity, -, hstate, hnext, hslack, -⟩ :=
    passQuantized_at hpass hk
  have hle := hstate.next_le hunit hslack
  rw [total_append] at hle
  omega

end MrBoxington.Scheduler
