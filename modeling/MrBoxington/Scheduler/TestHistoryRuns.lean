import Mathlib.Order.Bounds.Basic
import MrBoxington.Scheduler.TestHistory

/-!
# The history over many runs

Whatever measurements are recorded, the file holds records in order and no more than the limit,
its header holds the largest figures, and a lookup finds what a record holds. A record holds the
largest positive figures that were recorded for its test since it was last inserted.
-/

namespace MrBoxington.Scheduler.TestHistory

/-! ## Records in order -/

variable {records : List TestHistoryRecord} {record : TestHistoryRecord} {tag hash : ℕ}
  {file : Option (List UInt8)} {peak cores : Option ℕ}

private theorem WellFormed.sublist {part : List TestHistoryRecord} (hwell : WellFormed records)
    (hpart : part.Sublist records) : WellFormed part :=
  ⟨hwell.sorted.sublist hpart, fun record hmem => hwell.fits record (hpart.subset hmem)⟩

private theorem mem_putRecord {other : TestHistoryRecord} :
    other ∈ putRecord record records ↔
      other = record ∨ other ∈ records ∧ other.hash ≠ record.hash := by
  simp only [putRecord, List.mem_append, List.mem_filter, decide_eq_true_eq, List.mem_cons]
  constructor
  · rintro (⟨hmem, hlt⟩ | rfl | ⟨hmem, hlt⟩)
    · exact .inr ⟨hmem, by omega⟩
    · exact .inl rfl
    · exact .inr ⟨hmem, by omega⟩
  · rintro (rfl | ⟨hmem, hne⟩)
    · exact .inr (.inl rfl)
    · obtain hlt | hlt := Nat.lt_or_gt_of_ne hne
      · exact .inl ⟨hmem, hlt⟩
      · exact .inr (.inr ⟨hmem, hlt⟩)

private theorem WellFormed.putRecord (hwell : WellFormed records)
    (hhash : record.hash < 18446744073709551616) (hfits : record.measurement.Fits) :
    WellFormed (putRecord record records) := by
  constructor
  · refine List.pairwise_append.mpr ⟨hwell.sorted.filter _, List.pairwise_cons.mpr
      ⟨fun other hmem => of_decide_eq_true (List.mem_filter.mp hmem).2, hwell.sorted.filter _⟩, ?_⟩
    intro left hleft right hright
    have hbefore : left.hash < record.hash := of_decide_eq_true (List.mem_filter.mp hleft).2
    obtain rfl | hright := List.mem_cons.mp hright
    · exact hbefore
    · exact hbefore.trans (of_decide_eq_true (List.mem_filter.mp hright).2)
  · intro other hmem
    obtain rfl | ⟨hmem, -⟩ := mem_putRecord.mp hmem
    · exact ⟨hhash, hfits⟩
    · exact hwell.fits other hmem

private theorem removeSmallest_sublist (records : List TestHistoryRecord) :
    (removeSmallest records).Sublist records := by
  unfold removeSmallest
  split
  · exact List.erase_sublist
  · exact List.Sublist.refl _

private theorem length_removeSmallest (hne : records ≠ []) :
    (removeSmallest records).length + 1 = records.length := by
  unfold removeSmallest
  split
  · rename_i smallest hsmallest
    have hmem := List.argmin_mem hsmallest
    have hpos := List.length_pos_of_mem hmem
    rw [List.length_erase_of_mem hmem]
    omega
  · rename_i hnone
    exact absurd (List.argmin_eq_none.mp hnone) hne

private theorem enforceTestHistoryCap_sublist (limit rounds : ℕ)
    (records : List TestHistoryRecord) :
    (enforceTestHistoryCap limit rounds records).Sublist records := by
  induction rounds generalizing records with
  | zero => exact List.Sublist.refl _
  | succ rounds ih =>
    rw [enforceTestHistoryCap]
    split
    · exact (ih _).trans (removeSmallest_sublist records)
    · exact List.Sublist.refl _

/-- As many rounds as there are records are enough. -/
theorem length_enforceTestHistoryCap {limit rounds : ℕ}
    (hrounds : records.length ≤ limit + rounds) :
    (enforceTestHistoryCap limit rounds records).length ≤ limit := by
  induction rounds generalizing records with
  | zero => exact hrounds
  | succ rounds ih =>
    rw [enforceTestHistoryCap]
    split
    · rename_i hover
      have hne : records ≠ [] := by
        rintro rfl
        simp at hover
      have hremoved := length_removeSmallest hne
      exact ih (by omega)
    · omega

/-- One record too many: the cap takes the smallest, and nothing else. -/
private theorem evicted_by_cap {limit : ℕ} (hlength : records.length ≤ limit + 1)
    (hmem : record ∈ records)
    (hgone : record ∉ enforceTestHistoryCap limit records.length records) :
    limit < records.length ∧
      ∀ other ∈ enforceTestHistoryCap limit records.length records, worth record ≤ worth other := by
  obtain ⟨rounds, hrounds⟩ : ∃ rounds, records.length = rounds + 1 :=
    Nat.exists_eq_succ_of_ne_zero (List.length_pos_of_mem hmem).ne'
  rw [hrounds, enforceTestHistoryCap] at hgone ⊢
  split at hgone
  · rename_i hover
    have hremoved := length_removeSmallest (List.ne_nil_of_mem hmem)
    have hfits : ∀ part : List TestHistoryRecord, part.length ≤ limit →
        enforceTestHistoryCap limit rounds part = part := by
      intro part hpart
      cases rounds with
      | zero => rfl
      | succ rounds => rw [enforceTestHistoryCap, if_neg (Nat.not_lt.mpr hpart)]
    rw [hfits _ (by omega)] at hgone
    rw [if_pos hover, hfits _ (by omega)]
    refine ⟨by omega, fun other hother => ?_⟩
    unfold removeSmallest at hgone hother
    split at hgone
    · rename_i smallest hsmallest
      obtain rfl : record = smallest :=
        Classical.byContradiction fun hne => hgone ((List.mem_erase_of_ne hne).mpr hmem)
      rw [hsmallest] at hother
      exact List.le_of_mem_argmin (List.mem_of_mem_erase hother) hsmallest
    · exact absurd hmem hgone
  · exact absurd hmem hgone

/-- Putting a record adds one, unless it replaces another. -/
private theorem length_putRecord (record : TestHistoryRecord) (records : List TestHistoryRecord) :
    (putRecord record records).length + records.countP (fun other => other.hash == record.hash) =
      records.length + 1 := by
  induction records with
  | nil => rfl
  | cons first rest ih =>
    simp only [putRecord, List.length_append, List.length_cons, List.filter_cons, List.countP_cons,
      decide_eq_true_eq, beq_iff_eq] at ih ⊢
    obtain hlt | heq | hgt := Nat.lt_trichotomy first.hash record.hash
    · simp only [if_pos hlt, if_neg (Nat.lt_asymm hlt), if_neg (Nat.ne_of_lt hlt),
        List.length_cons]
      omega
    · simp only [heq, Nat.lt_irrefl, if_false, if_true]
      omega
    · simp only [if_pos hgt, if_neg (Nat.lt_asymm hgt), if_neg (Nat.ne_of_gt hgt),
        List.length_cons]
      omega

private theorem WellFormed.nodup (hwell : WellFormed records) :
    (records.map TestHistoryRecord.hash).Nodup :=
  List.pairwise_map.mpr (hwell.sorted.imp Nat.ne_of_lt)

private theorem measurementOf_of_mem (hwell : WellFormed records) (hmem : record ∈ records) :
    measurementOf records record.hash = record.measurement := by
  rw [measurementOf, Keyed.lookup_of_mem hwell.nodup hmem]
  rfl

private theorem measurementOf_of_absent (habsent : ∀ record ∈ records, record.hash ≠ hash) :
    measurementOf records hash = {} := by
  have hnone : Keyed.lookup TestHistoryRecord.hash records hash = none :=
    Keyed.lookup_eq_none_iff.mpr fun hmem => by
      obtain ⟨record, hrecord, heq⟩ := List.mem_map.mp hmem
      exact habsent record hrecord heq
  rw [measurementOf, hnone]
  rfl

private theorem fits_measurementOf (hwell : WellFormed records) (hash : ℕ) :
    (measurementOf records hash).Fits := by
  by_cases hpresent : ∃ record ∈ records, record.hash = hash
  · obtain ⟨record, hmem, rfl⟩ := hpresent
    rw [measurementOf_of_mem hwell hmem]
    exact (hwell.fits record hmem).2
  · rw [measurementOf_of_absent fun record hmem heq => hpresent ⟨record, hmem, heq⟩]
    exact fits_empty

/-! ## One measurement -/

/-- The file holds the records; while it is missing or not a history, there are none. -/
def Stored (tag : ℕ) (file : Option (List UInt8)) (records : List TestHistoryRecord) : Prop :=
  readTestHistoryHeader file tag = none ∧ records = [] ∨
    file = some (encodeTestHistory tag records) ∧ WellFormed records ∧
      records.length ≤ maxTestHistoryEntries

private theorem Stored.wellFormed (hstored : Stored tag file records) : WellFormed records := by
  obtain ⟨-, rfl⟩ | ⟨-, hwell, -⟩ := hstored
  · exact ⟨List.Pairwise.nil, by simp⟩
  · exact hwell

private theorem Stored.read (htag : tag < 18446744073709551616)
    (hstored : Stored tag file records) :
    readTestHistoryRecords file tag = records := by
  obtain ⟨hnone, rfl⟩ | ⟨rfl, hwell, -⟩ := hstored
  · simp [readTestHistoryRecords, hnone]
  · exact readTestHistoryRecords_encode htag hwell

private theorem Stored.lookup (htag : tag < 18446744073709551616)
    (hstored : Stored tag file records)
    (measurement : TestMeasurement) :
    (lookupTestHistory file tag hash).test = some measurement ↔ ⟨hash, measurement⟩ ∈ records := by
  obtain ⟨hnone, rfl⟩ | ⟨rfl, hwell, -⟩ := hstored
  · simp [lookupTestHistory, hnone]
  · rw [lookupTestHistory_encode htag hwell, Option.map_eq_some_iff]
    constructor
    · rintro ⟨record, hlookup, rfl⟩
      obtain rfl := Keyed.key_of_lookup hlookup
      exact Keyed.mem_of_lookup hlookup
    · exact fun hmem => ⟨_, Keyed.lookup_of_mem hwell.nodup hmem, rfl⟩

private theorem Stored.length_le (hstored : Stored tag file records) :
    records.length ≤ maxTestHistoryEntries := by
  obtain ⟨-, rfl⟩ | ⟨-, -, hlength⟩ := hstored
  · exact Nat.zero_le _
  · exact hlength

/-- A record made room for that of a new hash: the history was full, and what is left is worth
no less. -/
structure MadeRoom (records after : List TestHistoryRecord) (hash : ℕ)
    (record : TestHistoryRecord) : Prop where
  full : records.length = maxTestHistoryEntries
  new : ∀ other ∈ records, other.hash ≠ hash
  smallest : ∀ other ∈ after, worth record ≤ worth other

/-- After a measurement, the records are the others from before and the raised one, of which
only the cap takes one away. -/
theorem Stored.raised (htag : tag < 18446744073709551616) (hstored : Stored tag file records)
    (hhash : hash < 18446744073709551616) (hfits : (positive peak cores).Fits) :
    ∃ records', Stored tag (recordTestHistory tag hash peak cores file) records' ∧
      (∀ record ∈ records', record ∈ records ∧ record.hash ≠ hash ∨
        record = ⟨hash, raiseMeasurement (measurementOf records hash) (positive peak cores)⟩) ∧
      ∀ record ∉ records', record ∈ records ∧ record.hash ≠ hash ∨
        record = ⟨hash, raiseMeasurement (measurementOf records hash) (positive peak cores)⟩ ∧
          (positive peak cores ≠ {} ∨ ∃ other ∈ records, other.hash = hash) →
        MadeRoom records records' hash record := by
  have hwell := hstored.wellFormed
  unfold recordTestHistory
  rw [hstored.read htag]
  dsimp only
  split
  · rename_i hsame
    refine ⟨records, hstored, fun record hmem => ?_, fun record hgone hkept => ?_⟩
    · by_cases heq : record.hash = hash
      · subst heq
        rw [hsame, measurementOf_of_mem hwell hmem]
        exact .inr rfl
      · exact .inl ⟨hmem, heq⟩
    · obtain ⟨hmem, -⟩ | ⟨rfl, hpositive⟩ := hkept
      · exact absurd hmem hgone
      · -- the raised record is there already, or there is nothing to record
        by_cases hpresent : ∃ other ∈ records, other.hash = hash
        · obtain ⟨other, hother, rfl⟩ := hpresent
          rw [hsame, measurementOf_of_mem hwell hother] at hgone
          exact absurd hother hgone
        · have habsent := fun other hother heq => hpresent ⟨other, hother, heq⟩
          rw [measurementOf_of_absent habsent] at hsame
          exact absurd hsame (hpositive.resolve_right hpresent)
  · have hraised := (fits_measurementOf hwell hash).raise hfits
    have hput := @WellFormed.putRecord records ⟨hash, _⟩ hwell hhash hraised
    have hcapped : ∀ stored, (enforceTestHistoryCap maxTestHistoryEntries stored.length
        stored).Sublist stored := fun stored => enforceTestHistoryCap_sublist _ _ stored
    refine ⟨_, .inr ⟨rfl, hput.sublist (hcapped _), length_enforceTestHistoryCap (by omega)⟩,
      fun record hmem => (mem_putRecord.mp ((hcapped _).subset hmem)).symm,
      fun record hgone hkept => ?_⟩
    have hlength := length_putRecord
      ⟨hash, raiseMeasurement (measurementOf records hash) (positive peak cores)⟩ records
    have hbefore := hstored.length_le
    obtain ⟨hover, hsmallest⟩ := evicted_by_cap (by omega)
      (mem_putRecord.mpr (hkept.symm.imp_left And.left)) hgone
    refine ⟨by omega, ?_, hsmallest⟩
    have hnone : records.countP (fun other => other.hash == hash) = 0 := by
      dsimp only at hlength
      omega
    simpa using hnone

/-! ## Figures -/

/-- The figure is the largest value, or there is none. -/
def Largest (figure : Option ℕ) (values : Set ℕ) : Prop :=
  match figure with
  | none => values = ∅
  | some value => IsGreatest values value

private theorem Largest.iff {figure : Option ℕ} {values : Set ℕ} (hlargest : Largest figure values)
    (value : ℕ) : figure = some value ↔ IsGreatest values value := by
  cases figure with
  | none =>
    obtain rfl : values = ∅ := hlargest
    simp [IsGreatest]
  | some largest =>
    refine ⟨fun heq => Option.some.inj heq ▸ hlargest, fun hgreatest => ?_⟩
    exact congrArg some (IsGreatest.unique hlargest hgreatest)

private theorem Largest.raise {figure : Option ℕ} {values : Set ℕ}
    (hlargest : Largest figure values)
    (incoming : Option ℕ) :
    Largest (raiseField figure incoming) (values ∪ {value | incoming = some value}) := by
  cases figure with
  | none =>
    obtain rfl : values = ∅ := hlargest
    cases incoming with
    | none => simp [Largest, raiseField]
    | some b => simp [Largest, raiseField, IsGreatest, upperBounds]
  | some a =>
    cases incoming with
    | none => simpa [Largest, raiseField] using hlargest
    | some b =>
      have hsingle : IsGreatest {value | some b = some value} b := by
        simp [IsGreatest, upperBounds]
      exact IsGreatest.union hlargest hsingle

/-- Raising by figures in turn gives the largest. -/
theorem largest_foldr {α : Type*} (figure : α → Option ℕ) (entries : List α) :
    Largest (entries.foldr (fun entry current => raiseField current (figure entry)) none)
      {value | ∃ entry ∈ entries, figure entry = some value} := by
  induction entries with
  | nil => simp [Largest]
  | cons entry rest ih =>
    have hvalues : {value | ∃ other ∈ entry :: rest, figure other = some value} =
        {value | ∃ other ∈ rest, figure other = some value} ∪
          {value | figure entry = some value} := by
      ext value
      simp [or_comm]
    rw [hvalues]
    exact ih.raise (figure entry)

private theorem largest_maximumOf (field : TestMeasurement → Option ℕ)
    (hraise : ∀ current incoming, field (raiseMeasurement current incoming) =
      raiseField (field current) (field incoming)) (hempty : field {} = none)
    (records : List TestHistoryRecord) :
    Largest (field (maximumOf records))
      {value | ∃ record ∈ records, field record.measurement = some value} := by
  have hfold : field (maximumOf records) = records.reverse.foldr (fun record current =>
      raiseField current (field record.measurement)) none := by
    rw [maximumOf, List.foldl_eq_foldr_reverse]
    generalize records.reverse = entries
    induction entries with
    | nil => exact hempty
    | cons record rest ih => rw [List.foldr_cons, List.foldr_cons, hraise, ih]
  have hlargest := largest_foldr (fun record => field record.measurement) records.reverse
  rw [← hfold] at hlargest
  simpa only [List.mem_reverse] using hlargest

/-! ## Many measurements -/

/-- A measurement of a test. -/
structure Call (Test : Type) where
  test : Test
  peak : Option ℕ
  cores : Option ℕ

/-- The figures are words. -/
structure Call.Fits {Test : Type} (call : Call Test) : Prop where
  peak : ∀ value, call.peak = some value → value < 18446744073709551616
  cores : ∀ value, call.cores = some value → value < 18446744073709551616

private theorem positive_eq_some {figure : Option ℕ} {value : ℕ} :
    figure.filter (fun value => decide (0 < value)) = some value ↔
      figure = some value ∧ 0 < value := by
  simp [Option.filter_eq_some_iff]

private theorem Call.Fits.positive {Test : Type} {call : Call Test} (hfits : call.Fits) :
    (positive call.peak call.cores).Fits := by
  constructor
  · intro value hvalue
    obtain ⟨hpeak, hpos⟩ := positive_eq_some.mp hvalue
    exact ⟨hpos, hfits.peak value hpeak⟩
  · intro value hvalue
    obtain ⟨hcores, hpos⟩ := positive_eq_some.mp hvalue
    exact ⟨hpos, hfits.cores value hcores⟩

section Runs

variable {Test : Type} [DecidableEq Test] (hashOf : Test → ℕ) (tag : ℕ)
  (initial : Option (List UInt8))

/-- The file after measurements, the latest first. -/
def fileAfter : List (Call Test) → Option (List UInt8)
  | [] => initial
  | call :: earlier =>
    recordTestHistory tag (hashOf call.test) call.peak call.cores (fileAfter earlier)

def recordsAfter (calls : List (Call Test)) : List TestHistoryRecord :=
  readTestHistoryRecords (fileAfter hashOf tag initial calls) tag

/-- The test has a record. -/
def Present (test : Test) (calls : List (Call Test)) : Prop :=
  ∃ record ∈ recordsAfter hashOf tag initial calls, record.hash = hashOf test

/-- The measurements since the one with which the test was last inserted. -/
inductive SinceInserted (test : Test) : List (Call Test) → List (Call Test) → Prop
  | inserted {call : Call Test} {earlier : List (Call Test)}
      (habsent : ¬ Present hashOf tag initial test earlier)
      (hpresent : Present hashOf tag initial test (call :: earlier)) :
      SinceInserted test (call :: earlier) [call]
  | kept {call : Call Test} {earlier since : List (Call Test)}
      (hsince : SinceInserted test earlier since)
      (hpresent : Present hashOf tag initial test (call :: earlier)) :
      SinceInserted test (call :: earlier) (call :: since)

/-- What a measurement adds for a test. -/
def Call.contribution (test : Test) (call : Call Test) : TestMeasurement :=
  if call.test = test then positive call.peak call.cores else {}

def measured (test : Test) (since : List (Call Test)) : TestMeasurement :=
  since.foldr (fun call current => raiseMeasurement current (call.contribution test)) {}

variable {hashOf tag initial}

omit [DecidableEq Test] in
private theorem stored_fileAfter (htag : tag < 18446744073709551616)
    (hhash : ∀ test, hashOf test < 18446744073709551616)
    (hinitial : readTestHistoryHeader initial tag = none) (calls : List (Call Test))
    (hcalls : ∀ call ∈ calls, call.Fits) :
    Stored tag (fileAfter hashOf tag initial calls) (recordsAfter hashOf tag initial calls) := by
  induction calls with
  | nil =>
    refine .inl ⟨hinitial, ?_⟩
    simp [recordsAfter, fileAfter, readTestHistoryRecords, hinitial]
  | cons call earlier ih =>
    obtain ⟨hcall, hearlier⟩ := List.forall_mem_cons.mp hcalls
    obtain ⟨records', hstored, -, -⟩ := (ih hearlier).raised htag (hhash call.test) hcall.positive
    rwa [recordsAfter, fileAfter, hstored.read htag]

/-- A record holds what was measured since its test was last inserted. -/
theorem record_measured (htag : tag < 18446744073709551616)
    (hhash : ∀ test, hashOf test < 18446744073709551616) (hinjective : Function.Injective hashOf)
    (hinitial : readTestHistoryHeader initial tag = none) (calls : List (Call Test))
    (hcalls : ∀ call ∈ calls, call.Fits) (test : Test) {record : TestHistoryRecord}
    (hmem : record ∈ recordsAfter hashOf tag initial calls) (heq : record.hash = hashOf test) :
    ∃ since, SinceInserted hashOf tag initial test calls since ∧
      record.measurement = measured test since := by
  induction calls generalizing record with
  | nil =>
    rw [recordsAfter, fileAfter, readTestHistoryRecords, hinitial] at hmem
    cases hmem
  | cons call earlier ih =>
    obtain ⟨hcall, hearlier⟩ := List.forall_mem_cons.mp hcalls
    have hpresent : Present hashOf tag initial test (call :: earlier) := ⟨record, hmem, heq⟩
    have hbefore := stored_fileAfter htag hhash hinitial earlier hearlier
    obtain ⟨records', hstored, hrecords, -⟩ :=
      hbefore.raised htag (hhash call.test) hcall.positive
    rw [recordsAfter, fileAfter, hstored.read htag] at hmem
    by_cases htest : call.test = test
    · subst htest
      have hrecord := (hrecords record hmem).resolve_left fun hother => hother.2 heq
      subst hrecord
      by_cases hearlierPresent : Present hashOf tag initial call.test earlier
      · obtain ⟨previous, hprevious, hpreviousHash⟩ := hearlierPresent
        obtain ⟨since, hsince, hmeasured⟩ := ih hearlier hprevious hpreviousHash
        refine ⟨call :: since, .kept hsince hpresent, ?_⟩
        rw [measured, List.foldr_cons, ← measured, ← hmeasured, ← hpreviousHash,
          measurementOf_of_mem hbefore.wellFormed hprevious, Call.contribution, if_pos rfl]
      · refine ⟨[call], .inserted hearlierPresent hpresent, ?_⟩
        rw [measurementOf_of_absent fun other hother hotherHash =>
          hearlierPresent ⟨other, hother, hotherHash⟩]
        simp [measured, Call.contribution]
    · have hold : record ∈ recordsAfter hashOf tag initial earlier := by
        obtain ⟨hold, -⟩ | rfl := hrecords record hmem
        · exact hold
        · exact absurd (hinjective heq) htest
      obtain ⟨since, hsince, hmeasured⟩ := ih hearlier hold heq
      refine ⟨call :: since, .kept hsince hpresent, ?_⟩
      rw [measured, List.foldr_cons, ← measured, ← hmeasured, Call.contribution, if_neg htest]
      obtain ⟨_, ⟨peak, cores⟩⟩ := record
      cases peak <;> cases cores <;> rfl

/-- A test that has a record, or is measured with a positive figure, has one after the call
unless the cap took it. -/
private theorem present_unless_capped (htag : tag < 18446744073709551616)
    (hhash : ∀ test, hashOf test < 18446744073709551616) (hinjective : Function.Injective hashOf)
    (hinitial : readTestHistoryHeader initial tag = none) {call : Call Test}
    {earlier : List (Call Test)} (hcalls : ∀ other ∈ call :: earlier, other.Fits) {test : Test}
    (hmeasured : Present hashOf tag initial test earlier ∨
      call.test = test ∧ positive call.peak call.cores ≠ {})
    (hgone : ¬ Present hashOf tag initial test (call :: earlier)) :
    ∃ measurement, (⟨hashOf test, measurement⟩ ∈ recordsAfter hashOf tag initial earlier ∨
        call.test = test ∧ measurement = positive call.peak call.cores) ∧
      MadeRoom (recordsAfter hashOf tag initial earlier)
        (recordsAfter hashOf tag initial (call :: earlier)) (hashOf call.test)
        ⟨hashOf test, measurement⟩ := by
  obtain ⟨hcall, hearlier⟩ := List.forall_mem_cons.mp hcalls
  have hbefore := stored_fileAfter htag hhash hinitial earlier hearlier
  obtain ⟨records', hstored, -, hroom⟩ := hbefore.raised htag (hhash call.test) hcall.positive
  have hafter : recordsAfter hashOf tag initial (call :: earlier) = records' := hstored.read htag
  have hnot : ∀ measurement, (⟨hashOf test, measurement⟩ : TestHistoryRecord) ∉ records' :=
    fun measurement hmem => hgone ⟨_, hafter ▸ hmem, rfl⟩
  rw [hafter]
  by_cases htest : call.test = test
  · subst htest
    have hraised := hroom _ (hnot _) (.inr ⟨rfl, ?_⟩)
    · have hempty := measurementOf_of_absent hraised.new
      rw [hempty] at hraised
      exact ⟨_, .inr ⟨rfl, rfl⟩, hraised⟩
    · exact hmeasured.symm.imp_left And.right
  · obtain ⟨⟨_, measurement⟩, hmem, rfl⟩ := hmeasured.resolve_right fun h => htest h.1
    exact ⟨measurement, .inl hmem, hroom _ (hnot _)
      (.inl ⟨hmem, fun heq => htest (hinjective heq).symm⟩)⟩

private theorem largest_measured (field : TestMeasurement → Option ℕ)
    (hraise : ∀ current incoming, field (raiseMeasurement current incoming) =
      raiseField (field current) (field incoming)) (hempty : field {} = none) (test : Test)
    (since : List (Call Test)) :
    Largest (field (measured test since))
      {value | ∃ call ∈ since, call.test = test ∧
        field (positive call.peak call.cores) = some value} := by
  have hfold : field (measured test since) = since.foldr (fun call current =>
      raiseField current (field (call.contribution test))) none := by
    induction since with
    | nil => exact hempty
    | cons call rest ih => rw [measured, List.foldr_cons, ← measured, hraise, ih, List.foldr_cons]
  have hvalues : {value | ∃ call ∈ since, call.test = test ∧
        field (positive call.peak call.cores) = some value} =
      {value | ∃ call ∈ since, field (call.contribution test) = some value} := by
    ext value
    refine exists_congr fun call => and_congr_right fun _ => ?_
    by_cases htest : call.test = test
    · simp [Call.contribution, htest]
    · simp [Call.contribution, htest, hempty]
  rw [hfold, hvalues]
  exact largest_foldr (fun call => field (call.contribution test)) since

/-- Over any measurements from a file that is missing or not a history: the records are in order
and within the limit, the header holds their largest figures, a lookup finds exactly what a
record holds, and a record holds the largest positive figures since its test was last
inserted. A test with a record, or that was just measured with a positive figure, has one
unless the history was full and its record made room for a new one. -/
theorem history_consistent (hashOf : Test → ℕ) (hinjective : Function.Injective hashOf)
    (hhash : ∀ test, hashOf test < 18446744073709551616) (tag : ℕ)
    (htag : tag < 18446744073709551616) (initial : Option (List UInt8))
    (hinitial : readTestHistoryHeader initial tag = none) (calls : List (Call Test))
    (hcalls : ∀ call ∈ calls, call.Fits) :
    let file := fileAfter hashOf tag initial calls
    let records := readTestHistoryRecords file tag
    records.Pairwise (·.hash < ·.hash) ∧ records.length ≤ maxTestHistoryEntries ∧
    (∀ header, readTestHistoryHeader file tag = some header → ∀ value,
      (header.maximum.peak = some value ↔
        IsGreatest {v | ∃ record ∈ records, record.measurement.peak = some v} value) ∧
      (header.maximum.cores = some value ↔
        IsGreatest {v | ∃ record ∈ records, record.measurement.cores = some v} value)) ∧
    (∀ test measurement, (lookupTestHistory file tag (hashOf test)).test = some measurement ↔
      ⟨hashOf test, measurement⟩ ∈ records) ∧
    (∀ test record, record ∈ records → record.hash = hashOf test →
      ∃ since, SinceInserted hashOf tag initial test calls since ∧ ∀ value,
        (record.measurement.peak = some value ↔
          IsGreatest {v | ∃ call ∈ since, call.test = test ∧ call.peak = some v ∧ 0 < v} value) ∧
        (record.measurement.cores = some value ↔
          IsGreatest {v | ∃ call ∈ since, call.test = test ∧ call.cores = some v ∧ 0 < v}
            value)) ∧
    ∀ call earlier, calls = call :: earlier → ∀ test,
      Present hashOf tag initial test earlier ∨ call.test = test ∧
        (∃ value, 0 < value ∧ (call.peak = some value ∨ call.cores = some value)) →
      Present hashOf tag initial test calls ∨
        ∃ measurement, (⟨hashOf test, measurement⟩ ∈ recordsAfter hashOf tag initial earlier ∨
            call.test = test ∧ measurement = positive call.peak call.cores) ∧
          MadeRoom (recordsAfter hashOf tag initial earlier) records (hashOf call.test)
            ⟨hashOf test, measurement⟩ := by
  intro file records
  have hstored : Stored tag file records := stored_fileAfter htag hhash hinitial calls hcalls
  refine ⟨hstored.wellFormed.sorted, hstored.length_le, fun header hheader value => ?_,
    fun test measurement => ?_, fun test record hmem heq => ?_,
    fun call earlier hlast test hkept => ?_⟩
  · obtain ⟨hnone, -⟩ | ⟨hfile, hwell, -⟩ := hstored
    · cases hnone.symm.trans hheader
    · obtain ⟨header', hheader', -, hmaximum⟩ := readTestHistoryHeader_encode htag hwell
      rw [hfile] at hheader
      cases hheader'.symm.trans hheader
      rw [hmaximum]
      exact ⟨(largest_maximumOf TestMeasurement.peak (fun _ _ => rfl) rfl records).iff value,
        (largest_maximumOf TestMeasurement.cores (fun _ _ => rfl) rfl records).iff value⟩
  · exact hstored.lookup htag measurement
  · obtain ⟨since, hsince, hmeasured⟩ :=
      record_measured htag hhash hinjective hinitial calls hcalls test hmem heq
    refine ⟨since, hsince, fun value => ?_⟩
    rw [hmeasured]
    have hpeak := (largest_measured TestMeasurement.peak (fun _ _ => rfl) rfl test since).iff value
    have hcores :=
      (largest_measured TestMeasurement.cores (fun _ _ => rfl) rfl test since).iff value
    simp only [positive, positive_eq_some] at hpeak hcores
    exact ⟨hpeak, hcores⟩
  · subst hlast
    refine or_iff_not_imp_left.mpr (present_unless_capped htag hhash hinjective hinitial hcalls ?_)
    refine hkept.imp_right fun ⟨htest, value, hpos, hvalue⟩ => ⟨htest, fun hnone => ?_⟩
    rcases hvalue with hvalue | hvalue
    · have hpeak := congrArg TestMeasurement.peak hnone
      simp [positive, hvalue, Option.filter, hpos] at hpeak
    · have hcores := congrArg TestMeasurement.cores hnone
      simp [positive, hvalue, Option.filter, hpos] at hcores

/-- A test that was measured twice, after another one. -/
def threeCalls : List (Call Bool) :=
  [⟨true, some 3, some 2⟩, ⟨true, some 5, some 0⟩, ⟨false, some 4, none⟩]

theorem history_consistent_threeCalls :
    (lookupTestHistory (fileAfter (fun test => if test then 1 else 2) 7 none threeCalls) 7 1).test =
      some ⟨some 5, some 2⟩ := by
  have hhistory := history_consistent (fun test => if test then 1 else 2)
    (by unfold Function.Injective; decide) (by decide) 7 (by decide) none rfl threeCalls (by
      simp only [threeCalls, List.forall_mem_cons, List.not_mem_nil, false_implies, implies_true,
        and_true]
      exact ⟨⟨by simp, by simp⟩, ⟨by simp, by simp⟩, ⟨by simp, by simp⟩⟩)
  exact (hhistory.2.2.2.1 true ⟨some 5, some 2⟩).mpr (by decide +kernel)

end Runs

end MrBoxington.Scheduler.TestHistory
