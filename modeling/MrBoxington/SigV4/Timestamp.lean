import MrBoxington.Lib.Gregorian
import MrBoxington.Lib.I64

/-!
# The date of a signed request

A request is signed for a date, which is computed from the clock without a date library: from
the days since the epoch by the closed formula over eras of 400 years from March.
-/

namespace MrBoxington.SigV4

open Gregorian

/-- Year, month and day from the days since the epoch, on words that wrap around. -/
def civilFromDays (days : Int64) : Int64 × UInt32 × UInt32 :=
  let z := days + 719468
  let era := (if z ≥ 0 then z else z - 146096) / 146097
  let dayOfEra := z - era * 146097
  let yearOfEra :=
    (dayOfEra - dayOfEra / 1460 + dayOfEra / 36524 - dayOfEra / 146096) / 365
  let year := yearOfEra + era * 400
  let dayOfYear := dayOfEra - (365 * yearOfEra + yearOfEra / 4 - yearOfEra / 100)
  let shiftedMonth := (5 * dayOfYear + 2) / 153
  let day := (dayOfYear - (153 * shiftedMonth + 2) / 5 + 1).toUInt64.toUInt32
  let month :=
    (if shiftedMonth < 10 then shiftedMonth + 3 else shiftedMonth - 9).toUInt64.toUInt32
  (if month ≤ 2 then year + 1 else year, month, day)

/-- The date that the three words stand for. -/
def civilDate (civil : Int64 × UInt32 × UInt32) : Date :=
  ⟨civil.1.toInt, civil.2.1.toNat, civil.2.2.toNat⟩

/-- A number in decimal, filled up with zeros. -/
def zeroPadded (width n : ℕ) : String :=
  String.ofList ((Nat.toDigits 10 n).leftpad width '0')

/-- The fill of a negative number comes after its sign. -/
def signedPadded (width : ℕ) (x : ℤ) : String :=
  if x < 0 then "-" ++ zeroPadded (width - 1) x.natAbs else zeroPadded width x.toNat

inductive TimestampError where
  | beforeEpoch
deriving DecidableEq

def TimestampError.message : TimestampError → String
  | .beforeEpoch => "system clock is before the Unix epoch"

/-- The `YYYYMMDD` form of a date. -/
def basicDate (date : Date) : String :=
  signedPadded 4 date.year ++ zeroPadded 2 date.month ++ zeroPadded 2 date.day

/-- The scope date and the stamp of a clock, given as the whole seconds since the epoch if the
clock is not before it. -/
def formatTimestamp (sinceEpoch : Option UInt64) : Except TimestampError (String × String) :=
  match sinceEpoch with
  | none => .error .beforeEpoch
  | some seconds =>
    let days := (seconds / 86400).toInt64
    let timeOfDay := seconds % 86400
    let civil := civilFromDays days
    .ok (basicDate (civilDate civil),
      basicDate (civilDate civil) ++ "T" ++ zeroPadded 2 (timeOfDay / 3600).toNat ++
        zeroPadded 2 (timeOfDay % 3600 / 60).toNat ++ zeroPadded 2 (timeOfDay % 60).toNat ++ "Z")

/-! ## The day of a year from March -/

section DayOfYear

variable {dayOfYear shiftedMonth : Int64} {t : ℕ}

private theorem toInt_shiftedMonth (hday : dayOfYear.toInt = t) (ht : t < 366) :
    ((5 * dayOfYear + 2) / 153).toInt = MarchDay.shiftedMonth t := by
  have hfive := I64.toInt_mul (show (5 : Int64).toInt = 5 from rfl) hday
    ⟨by omega, by omega⟩
  have hsum := I64.toInt_add hfive (show (2 : Int64).toInt = 2 from rfl) ⟨by omega, by omega⟩
  rw [I64.toInt_div hsum (show (153 : Int64).toInt = 153 from rfl) (by omega)
    ⟨by omega, by omega⟩, MarchDay.shiftedMonth]
  omega

private theorem shiftedMonth_le (ht : t < 366) : MarchDay.shiftedMonth t ≤ 11 := by
  unfold MarchDay.shiftedMonth
  omega

private theorem toNat_day (hday : dayOfYear.toInt = t) (ht : t < 366)
    (hmonth : shiftedMonth.toInt = MarchDay.shiftedMonth t) :
    (dayOfYear - (153 * shiftedMonth + 2) / 5 + 1).toUInt64.toUInt32.toNat =
      MarchDay.dayOfMonth t := by
  have hle := shiftedMonth_le ht
  have hmul := I64.toInt_mul (show (153 : Int64).toInt = 153 from rfl) hmonth
    ⟨by omega, by omega⟩
  have hsum := I64.toInt_add hmul (show (2 : Int64).toInt = 2 from rfl) ⟨by omega, by omega⟩
  have hdiv := I64.toInt_div hsum (show (5 : Int64).toInt = 5 from rfl) (by omega)
    ⟨by omega, by omega⟩
  have hsub := I64.toInt_sub hday hdiv ⟨by omega, by omega⟩
  have hone := I64.toInt_add hsub (show (1 : Int64).toInt = 1 from rfl) ⟨by omega, by omega⟩
  have hbefore : (153 * MarchDay.shiftedMonth t + 2) / 5 ≤ t := by
    unfold MarchDay.shiftedMonth
    omega
  refine I64.toNat_toUInt32 (hone.trans ?_) ?_
  · unfold MarchDay.dayOfMonth
    omega
  · unfold MarchDay.dayOfMonth
    omega

private theorem toNat_month (hmonth : shiftedMonth.toInt = MarchDay.shiftedMonth t) (ht : t < 366) :
    (if shiftedMonth < 10 then shiftedMonth + 3 else shiftedMonth - 9).toUInt64.toUInt32.toNat =
      MarchDay.month t := by
  have hle := shiftedMonth_le ht
  have hadd := I64.toInt_add hmonth (show (3 : Int64).toInt = 3 from rfl) ⟨by omega, by omega⟩
  have hsub := I64.toInt_sub hmonth (show (9 : Int64).toInt = 9 from rfl) ⟨by omega, by omega⟩
  have hten : shiftedMonth < 10 ↔ MarchDay.shiftedMonth t < 10 := by
    rw [Int64.lt_iff_toInt_lt, hmonth, show (10 : Int64).toInt = 10 from rfl]
    omega
  simp only [hten, MarchDay.month]
  split
  · exact I64.toNat_toUInt32 hadd (by omega)
  · exact I64.toNat_toUInt32 (hsub.trans (by omega)) (by omega)

end DayOfYear

/-! ## The day of an era -/

section DayOfEra

variable {z era dayOfEra yearOfEra : Int64} {e d y t : ℕ}

private theorem toInt_era (hz : z.toInt = 146097 * e + d) (hd : d < 146097) :
    ((if z ≥ 0 then z else z - 146096) / 146097).toInt = e := by
  have hnonneg : z ≥ 0 := by
    rw [ge_iff_le, Int64.le_iff_toInt_le, hz, show (0 : Int64).toInt = 0 from rfl]
    omega
  have hrange : z.toInt ≤ 9223372036854775807 := Int64.toInt_le z
  rw [if_pos hnonneg, I64.toInt_div hz (show (146097 : Int64).toInt = 146097 from rfl) (by omega)
    ⟨by omega, by omega⟩]
  omega

private theorem toInt_dayOfEra (hz : z.toInt = 146097 * e + d) (hera : era.toInt = e) :
    (z - era * 146097).toInt = d := by
  have hrange : z.toInt ≤ 9223372036854775807 := Int64.toInt_le z
  have hmul := I64.toInt_mul hera (show (146097 : Int64).toInt = 146097 from rfl)
    ⟨by omega, by omega⟩
  rw [I64.toInt_sub hz hmul ⟨by omega, by omega⟩]
  omega

private theorem toInt_yearOfEra (hday : dayOfEra.toInt = d) (hd : d < 146097) :
    ((dayOfEra - dayOfEra / 1460 + dayOfEra / 36524 - dayOfEra / 146096) / 365).toInt =
      ((d - d / 1460 + d / 36524 - d / 146096) / 365 : ℕ) := by
  have hfours := I64.toInt_div hday (show (1460 : Int64).toInt = 1460 from rfl) (by omega)
    ⟨by omega, by omega⟩
  have hcenturies := I64.toInt_div hday (show (36524 : Int64).toInt = 36524 from rfl) (by omega)
    ⟨by omega, by omega⟩
  have heras := I64.toInt_div hday (show (146096 : Int64).toInt = 146096 from rfl) (by omega)
    ⟨by omega, by omega⟩
  have hsub := I64.toInt_sub hday hfours ⟨by omega, by omega⟩
  have hadd := I64.toInt_add hsub hcenturies ⟨by omega, by omega⟩
  have hdays := I64.toInt_sub hadd heras ⟨by omega, by omega⟩
  rw [I64.toInt_div hdays (show (365 : Int64).toInt = 365 from rfl) (by omega)
    ⟨by omega, by omega⟩]
  omega

private theorem toInt_dayOfYear (hday : dayOfEra.toInt = d) (hyear : yearOfEra.toInt = y)
    (hy : y < 400)
    (hd : d = 365 * y + y / 4 - y / 100 + t) (ht : t < 366) :
    (dayOfEra - (365 * yearOfEra + yearOfEra / 4 - yearOfEra / 100)).toInt = t := by
  have hmul := I64.toInt_mul (show (365 : Int64).toInt = 365 from rfl) hyear
    ⟨by omega, by omega⟩
  have hfours := I64.toInt_div hyear (show (4 : Int64).toInt = 4 from rfl) (by omega)
    ⟨by omega, by omega⟩
  have hcenturies := I64.toInt_div hyear (show (100 : Int64).toInt = 100 from rfl) (by omega)
    ⟨by omega, by omega⟩
  have hadd := I64.toInt_add hmul hfours ⟨by omega, by omega⟩
  have hstart := I64.toInt_sub hadd hcenturies ⟨by omega, by omega⟩
  rw [I64.toInt_sub hday hstart ⟨by omega, by omega⟩]
  omega

private theorem toInt_year (hyear : yearOfEra.toInt = y) (hera : era.toInt = e)
    (hfits : 400 * e + y < 9223372036854775807) :
    (yearOfEra + era * 400).toInt = (400 * e + y : ℕ) := by
  have hmul := I64.toInt_mul hera (show (400 : Int64).toInt = 400 from rfl)
    ⟨by omega, by omega⟩
  rw [I64.toInt_add hyear hmul ⟨by omega, by omega⟩]
  omega

private theorem toInt_nextYear {year : Int64} (hyear : year.toInt = y)
    (hy : y < 9223372036854775807) :
    (year + 1).toInt = y + 1 :=
  I64.toInt_add hyear rfl ⟨by omega, by omega⟩

end DayOfEra

/-- Where the shifted count of days fits, the formula finds the day of the year from March that
has the same number. -/
theorem civilDate_civilFromDays {days : Int64} {march : MarchDay} (hvalid : march.Valid)
    (hdays : days.toInt + 719468 = march.ordinal)
    (hfits : march.ordinal ≤ 9223372036854775807) :
    civilDate (civilFromDays days) = march.date := by
  obtain ⟨e, c, q, r, hinera, hyear, hordinal⟩ := MarchDay.exists_inEra hvalid
  have ht : march.day < 366 := Nat.lt_of_lt_of_le hvalid (MarchDay.yearLength_le _)
  obtain ⟨d, hd⟩ : ∃ d, d = 36524 * c + 1461 * q + 365 * r + march.day := ⟨_, rfl⟩
  obtain ⟨y, hy⟩ : ∃ y, y = 100 * c + 4 * q + r := ⟨_, rfl⟩
  have hlt : d < 146097 := hd ▸ hinera.dayOfEra_lt
  have hy400 : y < 400 := by
    obtain ⟨hc, hq, hr, -⟩ := hinera
    omega
  have hformula := hinera.yearOfEra hd
  have hfirst := hinera.firstDay
  rw [← hy] at hformula hfirst hyear
  rw [← hd] at hordinal
  rw [← hfirst] at hd
  have hrange : 400 * e + y < 9223372036854775807 := by omega
  clear hinera hfirst hy
  unfold civilFromDays
  extract_lets z era dayOfEra yearOfEra year dayOfYear shiftedMonth day month
  have hz : z.toInt = 146097 * e + d := by
    refine (I64.toInt_add rfl (show (719468 : Int64).toInt = 719468 from rfl)
      ⟨?_, ?_⟩).trans ?_ <;> omega
  have hera : era.toInt = e := toInt_era hz hlt
  have hdayOfEra : dayOfEra.toInt = d := toInt_dayOfEra hz hera
  have hyearOfEra : yearOfEra.toInt = y := (toInt_yearOfEra hdayOfEra hlt).trans (by rw [hformula])
  have hdayOfYear : dayOfYear.toInt = march.day :=
    toInt_dayOfYear hdayOfEra hyearOfEra hy400 hd ht
  have hshifted := toInt_shiftedMonth hdayOfYear ht
  have hmonth : month.toNat = MarchDay.month march.day := toNat_month hshifted ht
  have hday : day.toNat = MarchDay.dayOfMonth march.day := toNat_day hdayOfYear ht hshifted
  have hcivil : year.toInt = march.year := hyear ▸ toInt_year hyearOfEra hera hrange
  have hnext := toInt_nextYear hcivil (hyear ▸ hrange)
  have hcarry : month ≤ 2 ↔ MarchDay.month march.day ≤ 2 := by
    rw [UInt32.le_iff_toNat_le, hmonth]
    rfl
  rw [civilDate, MarchDay.date, MarchDay.carry, hmonth, hday]
  simp only [hcarry]
  split
  · rw [hnext]
    rfl
  · rw [hcivil]
    rfl

private theorem civilFromDays_eq_dateAfter {days : Int64} {d : ℕ} (hdays : days.toInt = d)
    (hfits : d ≤ 9223372036854056339) : civilDate (civilFromDays days) = dateAfter d := by
  have hordinal := MarchDay.ordinal_after d
  rw [← MarchDay.date_after]
  exact civilDate_civilFromDays (MarchDay.after_valid d) (by omega) (by omega)

/-- The shift of the next count of days is no word, and the formula leaves a day out. -/
theorem civilFromDays_skips_a_day :
    civilDate (civilFromDays 9223372036854056340) ≠ dateAfter 9223372036854056340 := by
  have hbefore : civilDate (civilFromDays 9223372036854056339) = dateAfter 9223372036854056339 :=
    civilFromDays_eq_dateAfter rfl (Nat.le_refl _)
  rw [dateAfter, Function.iterate_succ_apply', ← dateAfter, ← hbefore]
  decide +kernel

/-- Every count of days whose shift by 719468 is a word gives the date so many days after
1 January 1970, and every clock from the epoch on gives the texts of its date. -/
theorem timestamps_carry_calendar_date :
    (∀ days : Int64, 0 ≤ days → days ≤ 9223372036854056339 →
      civilDate (civilFromDays days) = dateAfter days.toInt.toNat) ∧
    ∀ seconds : UInt64, formatTimestamp (some seconds) =
      .ok (basicDate (dateAfter (seconds.toNat / 86400)),
        basicDate (dateAfter (seconds.toNat / 86400)) ++ "T" ++
          zeroPadded 2 (seconds.toNat % 86400 / 3600) ++
          zeroPadded 2 (seconds.toNat % 86400 % 3600 / 60) ++
          zeroPadded 2 (seconds.toNat % 86400 % 60) ++ "Z") := by
  refine ⟨fun days hnonneg hfits => ?_, fun seconds => ?_⟩
  · rw [Int64.le_iff_toInt_le] at hnonneg hfits
    have hle : days.toInt ≤ 9223372036854056339 := hfits
    have hzero : 0 ≤ days.toInt := hnonneg
    exact civilFromDays_eq_dateAfter (Int.toNat_of_nonneg hzero).symm (by omega)
  · have hdays : (seconds / 86400).toNat = seconds.toNat / 86400 := UInt64.toNat_div _ _
    have hlt := seconds.toNat_lt
    have hword : (seconds / 86400).toInt64.toInt = (seconds.toNat / 86400 : ℕ) := by
      rw [I64.toInt_toInt64 (by omega), hdays]
    have hcivil := civilFromDays_eq_dateAfter hword (by omega)
    simp only [formatTimestamp, hcivil, UInt64.toNat_div, UInt64.toNat_mod]
    rfl

theorem timestamps_carry_calendar_date_march :
    civilDate (civilFromDays 59) = ⟨1970, 3, 1⟩ ∧
      formatTimestamp (some 5097600) = .ok ("19700301", "19700301T000000Z") := by
  obtain ⟨hcivil, hformat⟩ := timestamps_carry_calendar_date
  refine ⟨(hcivil 59 (by decide) (by decide)).trans (by decide +kernel), ?_⟩
  exact (hformat 5097600).trans (congrArg Except.ok (by decide +kernel))

end MrBoxington.SigV4
