import MrBoxington.Scheduler.PassQuantized

/-!
# Passing older waiters, exactly

With charges that are not rounded, and few enough of them in total, the check refuses a
request only if it would delay some older waiter: the least packed sum above the threshold
is then the sum of charges whose completion lets that waiter fit most tightly.
-/

namespace MrBoxington.Scheduler

/-- Whatever part of the live charges and of the earlier waiters holds its charge when a
waiter fits, it fits with one more charge beside it. -/
def NeverDelays (capacity : UInt64) (live older : List UInt64) (charge : UInt64) : Prop :=
  ∀ (k : ℕ) (h : UInt64), older[k]? = some h → ∀ stillLive admitted : List UInt64,
    stillLive.Subperm live → admitted.Subperm (older.take k) →
    total stillLive + total admitted + h.toNat ≤ capacity.toNat →
    total stillLive + total admitted + h.toNat + charge.toNat ≤ capacity.toNat

/-- A slice of words has at most `isize::MAX` bytes. -/
def IsSlice (words : List UInt64) : Prop := 8 * words.length < 2 ^ 63

@[simp]
private theorem quanta_one (w : UInt64) : quanta 1 w = w.toNat := by
  rw [quanta, U64.toNat_divCeil (by decide)]
  simp

private theorem map_quanta_one (charges : List UInt64) :
    (charges.map (quanta 1)).sum = total charges := by
  simp [total, funext quanta_one]

private theorem checkedAdd_of_lt {a b : UInt64} (hlt : a.toNat + b.toNat < 2 ^ 64) :
    ∃ c, U64.checkedAdd a b = some c ∧ c.toNat = a.toNat + b.toNat :=
  ⟨UInt64.ofNat (a.toNat + b.toNat), U64.checkedAdd_eq_some.mpr
    (UInt64.toNat_ofNat_of_lt' hlt).symm, UInt64.toNat_ofNat_of_lt' hlt⟩

private theorem checkedTotal_of_lt {charges : List UInt64} (hlt : total charges < 2 ^ 64) :
    ∃ used, checkedTotal charges = some used := by
  have hfrom : ∀ start : UInt64, start.toNat + total charges < 2 ^ 64 →
      ∃ used, charges.foldlM (fun sum w => U64.checkedAdd sum w) start = some used := by
    induction charges with
    | nil => exact fun start _ => ⟨start, rfl⟩
    | cons w charges ih =>
      intro start hstart
      rw [total_cons] at hstart hlt
      obtain ⟨next, hnext, hsum⟩ := checkedAdd_of_lt (a := start) (b := w) (by omega)
      obtain ⟨used, hused⟩ := ih (by omega) next (by omega)
      exact ⟨used, by rw [List.foldlM_cons, hnext]; exact hused⟩
  exact hfrom 0 (by simpa using hlt)

private theorem quantizedTotal_of_lt {charges : List UInt64} (hlt : total charges < 65536) :
    ∃ all, quantizedTotal 1 charges = some all := by
  have hfrom : ∀ start : UInt64, start.toNat + total charges < 65536 →
      ∃ all, charges.foldlM (fun sum w => (U64.checkedAdd sum (U64.divCeil w 1)).filter
        (fun sum => decide (sum < maxBits))) start = some all := by
    induction charges with
    | nil => exact fun start _ => ⟨start, rfl⟩
    | cons w charges ih =>
      intro start hstart
      rw [total_cons] at hstart hlt
      have hw : (U64.divCeil w 1).toNat = w.toNat := quanta_one w
      obtain ⟨next, hnext, hsum⟩ := checkedAdd_of_lt (a := start) (b := U64.divCeil w 1) (by omega)
      have hsmall : next < maxBits := by
        rw [UInt64.lt_iff_toNat_lt]
        change next.toNat < 65536
        omega
      obtain ⟨all, hall⟩ := ih (by omega) next (by omega)
      refine ⟨all, ?_⟩
      rw [List.foldlM_cons, hnext, Option.filter_some, if_pos (by simpa using hsmall)]
      exact hall
  exact hfrom 0 (by simpa using hlt)

private theorem slack_of_sum {sum count : ℕ} {threshold : UInt64} (hsum : sum < 2 ^ 64)
    (hcount : count < 2 ^ 64) (hthreshold : threshold.toNat ≤ sum) :
    ∃ slack, (((countWord count).bind (fun count => U64.checkedMul count (1 - 1))).bind
      fun error => ((U64.checkedMul (UInt64.ofNat sum) 1).bind
        (fun sum => U64.checkedSub sum error)).bind
          fun lower => U64.checkedSub lower threshold) = some slack ∧
      threshold.toNat + slack.toNat = sum := by
  have hword : (UInt64.ofNat sum).toNat = sum := UInt64.toNat_ofNat_of_lt' hsum
  have herror : U64.checkedMul (UInt64.ofNat count) (1 - 1) = some 0 := by
    rw [U64.checkedMul_eq_some]
    simp
  have hscaled : U64.checkedMul (UInt64.ofNat sum) 1 = some (UInt64.ofNat sum) := by
    rw [U64.checkedMul_eq_some]
    simp
  have hlower : U64.checkedSub (UInt64.ofNat sum) 0 = some (UInt64.ofNat sum) := by
    rw [U64.checkedSub_eq_some]
    simp
  have hle : threshold ≤ UInt64.ofNat sum := by rwa [UInt64.le_iff_toNat_le, hword]
  have hslack : (UInt64.ofNat sum - threshold).toNat = sum - threshold.toNat := by
    rw [UInt64.toNat_sub_of_le _ _ hle, hword]
  refine ⟨UInt64.ofNat sum - threshold, ?_, by omega⟩
  simp only [countWord, hcount, if_true, Option.bind_some, herror, hscaled, hlower,
    U64.checkedSub_eq_some, hword, hslack]
  omega

/-- The slack of a waiter that can ever fit is the room that is left when some charges have
completed. -/
theorem PassState.exists_slack {ahead : UInt64} {live done sums : List UInt64}
    (free next : UInt64) (hstate : PassState 1 live done ahead sums)
    (hfew : total (live ++ done) < 65536) (hcount : live.length + done.length < 2 ^ 64)
    (hnext : next.toNat ≤ free.toNat + total (live ++ done)) :
    ∃ slack finished, slackBound 1 free (live.length + done.length) next sums = some slack ∧
      finished.Sublist (live ++ done) ∧
      next.toNat + slack.toNat = free.toNat + total finished := by
  unfold slackBound
  by_cases hle : next ≤ free
  · rw [if_pos hle]
    refine ⟨free - next, [], rfl, List.nil_sublist _, ?_⟩
    have hle' := UInt64.le_iff_toNat_le.mp hle
    rw [UInt64.toNat_sub_of_le _ _ hle, total_nil]
    omega
  · rw [if_neg hle]
    have hlt : free.toNat < next.toNat := by
      have := UInt64.le_iff_toNat_le.not.mp hle
      omega
    have hthreshold : (next - free).toNat = next.toNat - free.toNat :=
      UInt64.toNat_sub_of_le _ _ (UInt64.le_iff_toNat_le.mpr hlt.le)
    have hneeded : (U64.divCeil (next - free) 1).toNat = (next - free).toNat := quanta_one _
    -- The sum of all charges is packed and large enough.
    have hall := hstate.testBit_quanta (List.Subperm.refl (live ++ done))
    rw [map_quanta_one] at hall
    cases hfirst : Bitset.firstAtLeast sums (U64.divCeil (next - free) 1).toNat with
    | none =>
      have hnone := Bitset.firstAtLeast_eq_none hfirst (i := total (live ++ done))
        (by omega) (Bitset.lt_of_testBit hall)
      rw [hall] at hnone
      cases hnone
    | some sum =>
      have hleast := Bitset.firstAtLeast_isLeast hfirst
      obtain ⟨finished, hfinished, hsum⟩ := hstate.exists_chosen hleast.1.2
      rw [map_quanta_one] at hsum
      have hsmall := total_le_of_sublist hfinished
      have hreached : (next - free).toNat ≤ sum := hneeded ▸ hleast.1.1
      obtain ⟨slack, hslack, hroom⟩ := slack_of_sum (by omega) hcount hreached
      refine ⟨slack, finished, ?_, hfinished, by omega⟩
      simpa only [hfirst, Option.bind_some] using hslack

private theorem exists_kept {finished live done : List UInt64}
    (hsub : finished.Sublist (live ++ done)) :
    ∃ stillLive admitted : List UInt64, stillLive.Subperm live ∧ admitted.Subperm done ∧
      total stillLive + total admitted + total finished = total (live ++ done) := by
  obtain ⟨fromLive, fromDone, rfl, hlive, hdone⟩ := List.sublist_append_iff.mp hsub
  obtain ⟨stillLive, hstillLive, hliveSum⟩ := exists_finished hlive.subperm
  obtain ⟨admitted, hadmitted, hdoneSum⟩ := exists_finished hdone.subperm
  refine ⟨stillLive, admitted, hstillLive, hadmitted, ?_⟩
  rw [total_append, total_append]
  omega

private theorem olderPass_of_neverDelays {capacity free charge ahead : UInt64}
    {live done older sums : List UInt64} (hstate : PassState 1 live done ahead sums)
    (hroom : ((live ++ done ++ older).map (quanta 1)).sum < 64 * sums.length)
    (hcapacity : capacity.toNat = total live + free.toNat)
    (hfew : total (live ++ done ++ older) < 65536)
    (hcount : live.length + done.length + older.length < 2 ^ 64)
    (halone : ∀ h ∈ older, h.toNat ≤ capacity.toNat)
    (hdelays : ∀ (k : ℕ) (h : UInt64), older[k]? = some h →
      ∀ stillLive admitted : List UInt64, stillLive.Subperm live →
      admitted.Subperm (done ++ older.take k) →
      total stillLive + total admitted + h.toNat ≤ capacity.toNat →
      total stillLive + total admitted + h.toNat + charge.toNat ≤ capacity.toNat) :
    olderPass 1 free charge live.length done.length ahead sums older = true := by
  induction older generalizing done ahead sums with
  | nil => rfl
  | cons first older ih =>
    have hahead := hstate.ahead_eq
    rw [List.append_assoc] at hfew
    simp only [total_append, total_cons] at hfew
    obtain ⟨next, hadd, hnext⟩ := checkedAdd_of_lt (a := ahead) (b := first) (by omega)
    have hfirst := halone first List.mem_cons_self
    obtain ⟨slack, finished, hslack, hfinished, hexact⟩ := hstate.exists_slack free next
      (by rw [total_append]; omega) (by omega) (by rw [total_append]; omega)
    -- What has not completed leaves room for the waiter, so also for the charge.
    obtain ⟨stillLive, admitted, hlive, hadmitted, hkept⟩ := exists_kept hfinished
    rw [total_append] at hkept
    have hfits := hdelays 0 first rfl stillLive admitted hlive (by simpa using hadmitted)
      (by omega)
    have hcharge : ¬slack < charge := by
      rw [UInt64.lt_iff_toNat_lt]
      omega
    rw [olderPass, hadd]
    simp only [hslack, hcharge, if_false]
    have hrest := ih (hstate.passed hroom hnext.symm) (by simpa [addSubsetWeight] using hroom)
      (by simp only [total_append, total_cons, total_nil]; omega)
      (by simp only [List.length_append, List.length_cons, List.length_nil] at hcount ⊢; omega)
      (fun h hmem => halone h (List.mem_cons_of_mem _ hmem))
      (fun k h hk stillLive admitted hlive hadmitted =>
        hdelays (k + 1) h (by simpa using hk) stillLive admitted hlive (by simpa using hadmitted))
    simpa using hrest

private theorem passQuantized_of_neverDelays {capacity charge : UInt64} {live older : List UInt64}
    (hlive : IsSlice live) (holder : IsSlice older) (hfew : total live + total older < 65536)
    (hfits : total live + charge.toNat ≤ capacity.toNat)
    (halone : ∀ h ∈ older, h.toNat ≤ capacity.toNat)
    (hdelays : NeverDelays capacity live older charge) :
    passQuantized capacity live older charge 1 = true := by
  obtain ⟨all, hall⟩ : ∃ all, quantizedTotal 1 (live ++ older) = some all :=
    quantizedTotal_of_lt (by rwa [total_append])
  obtain ⟨used, hused⟩ : ∃ used, checkedTotal live = some used := checkedTotal_of_lt (by omega)
  have hused' := checkedTotal_eq hused
  have hle : used ≤ capacity := UInt64.le_iff_toNat_le.mpr (by omega)
  have hfree : U64.checkedSub capacity used = some (capacity - used) := by
    rw [U64.checkedSub_eq_some, UInt64.toNat_sub_of_le _ _ hle]
    have := UInt64.le_iff_toNat_le.mp hle
    omega
  have hcapacity := U64.checkedSub_eq_some.mp hfree
  have hcharge : ¬capacity - used < charge := by
    rw [UInt64.lt_iff_toNat_lt]
    omega
  obtain ⟨hstate, hlarge⟩ := PassState.start hall
  unfold IsSlice at hlive holder
  unfold passQuantized
  cases hempty : older.isEmpty with
  | true => rfl
  | false =>
    simp only [Bool.false_eq_true, if_false, hall, hused, hfree, hcharge]
    refine olderPass_of_neverDelays hstate hlarge (by omega) ?_ ?_ halone hdelays
    · simpa using hfew
    · simp only [List.length_nil]
      omega

/-- A request that passes fits beside the live charges and never delays an older waiter,
whatever completes first; and with charges that are not rounded and sum to less than the
number of packed sums, it passes exactly then, if each older waiter fits alone. -/
theorem passQuantized_protects (capacity charge : UInt64) (live older : List UInt64) :
    (∀ unit : UInt64, 1 ≤ unit → passQuantized capacity live older charge unit = true →
      older ≠ [] →
      total live + charge.toNat ≤ capacity.toNat ∧ NeverDelays capacity live older charge) ∧
    (IsSlice live → IsSlice older → total live + total older < 65536 →
      (passQuantized capacity live older charge 1 = true ↔
        older = [] ∨ total live + charge.toNat ≤ capacity.toNat ∧
          (∀ h ∈ older, h.toNat ≤ capacity.toNat) ∧ NeverDelays capacity live older charge)) := by
  have hsound : ∀ unit : UInt64, 1 ≤ unit →
      passQuantized capacity live older charge unit = true → older ≠ [] →
      total live + charge.toNat ≤ capacity.toNat ∧ NeverDelays capacity live older charge := by
    intro unit hunit hpass hne
    have hpositive : 0 < unit.toNat := UInt64.le_iff_toNat_le.mp hunit
    refine ⟨?_, fun k h hk stillLive admitted hlive hadmitted hfit =>
      passQuantized_sound hpositive hpass hk hlive hadmitted hfit⟩
    obtain ⟨first, rest, rfl⟩ := List.exists_cons_of_ne_nil hne
    obtain ⟨free, -, -, -, -, hcapacity, hcharge, -⟩ := passQuantized_at hpass
      (k := 0) (h := first) rfl
    omega
  refine ⟨hsound, fun hlive holder hfew => ⟨fun hpass => ?_, ?_⟩⟩
  · by_cases hne : older = []
    · exact .inl hne
    · obtain ⟨hfits, hdelays⟩ := hsound 1 (by decide) hpass hne
      refine .inr ⟨hfits, fun h hmem => ?_, hdelays⟩
      obtain ⟨k, hk⟩ := List.mem_iff_getElem?.mp hmem
      exact passQuantized_alone (by decide) hpass hk
  · rintro (rfl | ⟨hfits, halone, hdelays⟩)
    · rfl
    · exact passQuantized_of_neverDelays hlive holder hfew hfits halone hdelays

/-- With 3 of 10 live, a charge of 2 passes a waiter for 8 that fits when the 3 complete; a
charge of 3 would delay it. -/
theorem passQuantized_protects_tight :
    NeverDelays 10 [3] [8] 2 ∧ ¬NeverDelays 10 [3] [8] 3 := by
  refine ⟨((passQuantized_protects 10 2 [3] [8]).1 1 (by decide) (by decide +kernel)
    (by simp)).2, fun hdelays => ?_⟩
  have hpass := ((passQuantized_protects 10 3 [3] [8]).2 (by simp [IsSlice]) (by simp [IsSlice])
    (by decide)).mpr (.inr ⟨by decide, List.forall_mem_singleton.mpr (by decide), hdelays⟩)
  revert hpass
  decide +kernel

end MrBoxington.Scheduler
