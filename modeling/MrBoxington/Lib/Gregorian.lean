import Mathlib.Data.Int.Notation
import Mathlib.Logic.Function.Iterate

/-!
# The proleptic Gregorian calendar

Dates and their successors, and the years which begin in March: there the leap day is the last
day of a year, so that a day is counted by a closed formula of its year.
-/

namespace Gregorian

structure Date where
  year : ℤ
  month : ℕ
  day : ℕ
deriving DecidableEq

def isLeap (year : ℤ) : Bool :=
  year % 4 == 0 && (year % 100 != 0 || year % 400 == 0)

private theorem isLeap_iff {year : ℤ} :
    isLeap year = true ↔ year % 4 = 0 ∧ (year % 100 ≠ 0 ∨ year % 400 = 0) := by
  simp [isLeap]

def daysInMonth (leap : Bool) (month : ℕ) : ℕ :=
  if month = 2 then
    if leap then 29 else 28
  else if month = 4 ∨ month = 6 ∨ month = 9 ∨ month = 11 then 30
  else 31

def Date.next (date : Date) : Date :=
  if date.day < daysInMonth (isLeap date.year) date.month then
    { date with day := date.day + 1 }
  else if date.month < 12 then
    { date with month := date.month + 1, day := 1 }
  else
    { year := date.year + 1, month := 1, day := 1 }

/-- The date some days after 1 January 1970. -/
def dateAfter (days : ℕ) : Date :=
  Date.next^[days] ⟨1970, 1, 1⟩

/-! ## Years from March -/

/-- A day by the year of the last 1 March and the days since. -/
structure MarchDay where
  year : ℕ
  day : ℕ

namespace MarchDay

/-- The leap day that ends a year from March is in the next calendar year. -/
def endsLeap (year : ℕ) : Bool :=
  isLeap ((year : ℤ) + 1)

def yearLength (leap : Bool) : ℕ :=
  if leap then 366 else 365

/-- The day is one of its year. -/
def Valid (march : MarchDay) : Prop :=
  march.day < yearLength (endsLeap march.year)

def next (march : MarchDay) : MarchDay :=
  if march.day + 1 < yearLength (endsLeap march.year) then ⟨march.year, march.day + 1⟩
  else ⟨march.year + 1, 0⟩

/-- The number of the month, from March as zero: five months have 153 days. -/
def shiftedMonth (day : ℕ) : ℕ :=
  (5 * day + 2) / 153

def month (day : ℕ) : ℕ :=
  if shiftedMonth day < 10 then shiftedMonth day + 3 else shiftedMonth day - 9

def dayOfMonth (day : ℕ) : ℕ :=
  day - (153 * shiftedMonth day + 2) / 5 + 1

/-- January and February are in the next calendar year. -/
def carry (day : ℕ) : ℕ :=
  if month day ≤ 2 then 1 else 0

def date (march : MarchDay) : Date :=
  ⟨march.year + carry march.day, month march.day, dayOfMonth march.day⟩

/-- The number of the first day of a year, from 1 March of the year zero. -/
def firstDay (year : ℕ) : ℕ :=
  365 * year + year / 4 - year / 100 + year / 400

def ordinal (march : MarchDay) : ℕ :=
  firstDay march.year + march.day

private theorem endsLeap_iff {year : ℕ} :
    endsLeap year = true ↔
      (year + 1) % 4 = 0 ∧ ((year + 1) % 100 ≠ 0 ∨ (year + 1) % 400 = 0) := by
  rw [endsLeap, isLeap_iff]
  omega

/-- The leap rule is how the number of the first day grows from year to year. -/
theorem firstDay_succ (year : ℕ) :
    firstDay (year + 1) = firstDay year + yearLength (endsLeap year) := by
  have hcenturies : year / 100 ≤ year / 4 := by omega
  have hcentury : (year + 1) % 100 = 0 → (year + 1) % 4 = 0 := by omega
  have hera : (year + 1) % 400 = 0 → (year + 1) % 100 = 0 := by omega
  have hleap := @endsLeap_iff year
  unfold firstDay yearLength
  rw [Nat.succ_div, Nat.succ_div, Nat.succ_div]
  simp only [Nat.dvd_iff_mod_eq_zero]
  cases hends : endsLeap year with
  | true =>
    obtain ⟨hfour, hrule⟩ := hleap.mp hends
    rw [if_pos hfour, if_pos rfl]
    rcases hrule with hcommon | hfourth
    · rw [if_neg hcommon, if_neg (fun h => hcommon (hera h))]
      omega
    · rw [if_pos (hera hfourth), if_pos hfourth]
      omega
  | false =>
    have hnot := mt hleap.mpr (Bool.not_eq_true _ ▸ hends)
    by_cases hfour : (year + 1) % 4 = 0
    · have hcommon : (year + 1) % 100 = 0 := by
        by_contra hcommon
        exact hnot ⟨hfour, Or.inl hcommon⟩
      have hfourth : (year + 1) % 400 ≠ 0 := fun h => hnot ⟨hfour, Or.inr h⟩
      rw [if_pos hfour, if_pos hcommon, if_neg hfourth, if_neg Bool.false_ne_true]
      omega
    · have hcommon := mt hcentury hfour
      rw [if_neg hfour, if_neg hcommon, if_neg (mt hera hcommon), if_neg Bool.false_ne_true]
      omega

section Next

variable {march : MarchDay}

private theorem next_valid (march : MarchDay) : march.next.Valid := by
  unfold next
  split
  · assumption
  · simp only [Valid, yearLength]
    split <;> omega

private theorem ordinal_next (hvalid : march.Valid) : march.next.ordinal = march.ordinal + 1 := by
  unfold next
  split
  · rfl
  · rename_i hlast
    have hlength : march.day + 1 = yearLength (endsLeap march.year) := by
      unfold Valid at hvalid
      omega
    simp only [ordinal, firstDay_succ]
    omega

/-- A date's successor with the year counted from a base, for a leap year or another. -/
def successor (leap : Bool) (carry month day : ℕ) : ℕ × ℕ × ℕ :=
  if day < daysInMonth leap month then (carry, month, day + 1)
  else if month < 12 then (carry, month + 1, 1)
  else (carry + 1, 1, 1)

/-- The days of one year follow each other as its dates do: only the length of February depends
on the calendar year, and the leap day may end the year. -/
theorem successor_within : ∀ leap calendarLeap : Bool, ∀ day < 366,
    (carry day = 1 → calendarLeap = leap) → day + 1 < yearLength leap →
      successor calendarLeap (carry day) (month day) (dayOfMonth day) =
        (carry (day + 1), month (day + 1), dayOfMonth (day + 1)) := by
  decide +kernel

private theorem successor_last : ∀ leap : Bool, ∀ day < 366, day + 1 = yearLength leap →
    carry day = 1 ∧ successor leap (carry day) (month day) (dayOfMonth day) = (1, 3, 1) := by
  decide +kernel

theorem yearLength_le (leap : Bool) : yearLength leap ≤ 366 := by
  cases leap <;> decide

private theorem next_eq_successor (base : ℤ) (carry month day : ℕ) :
    Date.next ⟨base + carry, month, day⟩ =
      match successor (isLeap (base + carry)) carry month day with
      | (carry, month, day) => ⟨base + carry, month, day⟩ := by
  unfold Date.next successor
  dsimp only
  split
  · rfl
  · split
    · rfl
    · simp [Int.add_assoc]

private theorem date_next (hvalid : march.Valid) : march.next.date = march.date.next := by
  have hday : march.day < 366 := Nat.lt_of_lt_of_le hvalid (yearLength_le _)
  rw [date, date, next_eq_successor]
  unfold next
  split
  · rename_i hmore
    rw [successor_within (endsLeap march.year) _ march.day hday ?_ hmore]
    intro hcarry
    rw [hcarry, endsLeap, Int.natCast_one]
  · rename_i hlast
    have hlength : march.day + 1 = yearLength (endsLeap march.year) := by
      unfold Valid at hvalid
      omega
    obtain ⟨hcarry, hsuccessor⟩ := successor_last _ march.day hday hlength
    rw [hcarry] at hsuccessor ⊢
    rw [Int.natCast_one, ← endsLeap, hsuccessor]
    simp [carry, month, dayOfMonth, shiftedMonth]

end Next

/-- The day some days after 1 January 1970. -/
def after (days : ℕ) : MarchDay :=
  next^[days] ⟨1969, 306⟩

private theorem after_succ (days : ℕ) : after (days + 1) = (after days).next :=
  Function.iterate_succ_apply' _ _ _

/-- The calendar day after any number of days exists. -/
theorem after_valid (days : ℕ) : (after days).Valid := by
  cases days with
  | zero =>
    show 306 < yearLength (endsLeap 1969)
    decide
  | succ days =>
    rw [after_succ]
    exact next_valid _

/-- Walking on counts every day once. -/
theorem ordinal_after (days : ℕ) : (after days).ordinal = days + 719468 := by
  induction days with
  | zero =>
    rw [Nat.zero_add]
    decide
  | succ days ih =>
    have hnext := ordinal_next (after_valid days)
    rw [after_succ]
    omega

/-- The walk and the closed form give the same date. -/
theorem date_after (days : ℕ) : (after days).date = dateAfter days := by
  induction days with
  | zero => rfl
  | succ days ih =>
    rw [after_succ, date_next (after_valid days), ih, dateAfter, dateAfter,
      Function.iterate_succ_apply']

/-! ## The year from the number of the day -/

private theorem firstDay_era (era year : ℕ) :
    firstDay (400 * era + year) = 146097 * era + firstDay year := by
  have hfours : (400 * era + year) / 4 = 100 * era + year / 4 := by omega
  have hcenturies : (400 * era + year) / 100 = 4 * era + year / 100 := by omega
  have heras : (400 * era + year) / 400 = era + year / 400 := by omega
  have hle : year / 100 ≤ year / 4 := by omega
  unfold firstDay
  rw [hfours, hcenturies, heras]
  omega

section Era

variable {century four rest day dayOfEra : ℕ}

/-- A day of the era by its century, its four years and the year of these: the centuries but the
last lack the leap day of their last year. -/
structure InEra (century four rest day : ℕ) : Prop where
  century_le : century ≤ 3
  four_le : four ≤ 24
  rest_le : rest ≤ 3
  day_lt : day < 365 ∨ day = 365 ∧ rest = 3 ∧ (four < 24 ∨ century = 3)

private theorem InEra.centuries (hera : InEra century four rest day)
    (hday : dayOfEra = 36524 * century + 1461 * four + 365 * rest + day) :
    dayOfEra / 36524 = century + dayOfEra / 146096 := by
  obtain ⟨hcentury, hfour, hrest, hlt⟩ := hera
  by_cases hlast : dayOfEra = 146096
  · subst hlast
    omega
  · have hcenturies : dayOfEra / 36524 = century := by omega
    have hnone : dayOfEra / 146096 = 0 := by omega
    omega

/-- Four years of 365 days end early, before the leap day. -/
theorem InEra.early (hera : InEra century four rest day) {early : ℕ}
    (hearly : early = (24 * century + four + 365 * rest + day) / 1460) :
    early ≤ day ∧ day ≤ 364 + early := by
  obtain ⟨hcentury, hfour, hrest, hlt | ⟨rfl, rfl, -⟩⟩ := hera <;> omega

/-- The year within the era, from the day within the era. -/
theorem InEra.yearOfEra (hera : InEra century four rest day)
    (hday : dayOfEra = 36524 * century + 1461 * four + 365 * rest + day) :
    (dayOfEra - dayOfEra / 1460 + dayOfEra / 36524 - dayOfEra / 146096) / 365 =
      100 * century + 4 * four + rest := by
  obtain ⟨early, hearly⟩ : ∃ early, early = (24 * century + four + 365 * rest + day) / 1460 :=
    ⟨_, rfl⟩
  have hfours : dayOfEra / 1460 = 25 * century + four + early := by
    have hsum : dayOfEra =
        1460 * (25 * century + four) + (24 * century + four + 365 * rest + day) := by omega
    rw [hsum, Nat.mul_add_div (by decide), ← hearly]
  have hshift := hera.early hearly
  have hdays : dayOfEra - dayOfEra / 1460 + dayOfEra / 36524 - dayOfEra / 146096 =
      365 * (100 * century + 4 * four + rest) + (day - early) := by
    rw [hfours, hera.centuries hday, ← Nat.add_assoc, Nat.add_sub_cancel]
    clear hearly hfours
    omega
  rw [hdays, Nat.mul_add_div (by decide), Nat.div_eq_of_lt (by omega), Nat.add_zero]

/-- The first day of a year within the era. -/
theorem InEra.firstDay (hera : InEra century four rest day) :
    365 * (100 * century + 4 * four + rest) + (100 * century + 4 * four + rest) / 4 -
      (100 * century + 4 * four + rest) / 100 = 36524 * century + 1461 * four + 365 * rest := by
  obtain ⟨hcentury, hfour, hrest, -⟩ := hera
  have hfours : (100 * century + 4 * four + rest) / 4 = 25 * century + four := by omega
  have hcenturies : (100 * century + 4 * four + rest) / 100 = century := by omega
  rw [hfours, hcenturies]
  omega

theorem InEra.dayOfEra_lt (hera : InEra century four rest day) :
    36524 * century + 1461 * four + 365 * rest + day < 146097 := by
  obtain ⟨hcentury, hfour, hrest, hlt | ⟨rfl, rfl, hlt⟩⟩ := hera <;> omega

end Era

/-- Every day is one of an era. -/
theorem exists_inEra {march : MarchDay} (hvalid : march.Valid) :
    ∃ era century four rest, InEra century four rest march.day ∧
      march.year = 400 * era + (100 * century + 4 * four + rest) ∧
      march.ordinal =
        146097 * era + (36524 * century + 1461 * four + 365 * rest + march.day) := by
  obtain ⟨era, year, hyear, hera⟩ : ∃ era year, year < 400 ∧ march.year = 400 * era + year :=
    ⟨_, _, Nat.mod_lt _ (by decide), (Nat.div_add_mod _ _).symm⟩
  obtain ⟨century, rest, hrest, rfl⟩ : ∃ century rest, rest < 100 ∧ year = 100 * century + rest :=
    ⟨_, _, Nat.mod_lt _ (by decide), (Nat.div_add_mod _ _).symm⟩
  obtain ⟨four, rest, hlt, rfl⟩ : ∃ four single, single < 4 ∧ rest = 4 * four + single :=
    ⟨_, _, Nat.mod_lt _ (by decide), (Nat.div_add_mod _ _).symm⟩
  have hinera : InEra century four rest march.day := by
    refine ⟨by omega, by omega, by omega, ?_⟩
    unfold Valid yearLength at hvalid
    split at hvalid
    · rename_i hends
      obtain ⟨hfour, hrule⟩ := endsLeap_iff.mp hends
      have hlast : rest = 3 := by omega
      have hcommon : four < 24 ∨ century = 3 := by omega
      omega
    · exact Or.inl hvalid
  refine ⟨era, century, four, rest, hinera, by rw [hera, Nat.add_assoc], ?_⟩
  have hfirst := hinera.firstDay
  rw [ordinal, hera, firstDay_era, MarchDay.firstDay, ← Nat.add_assoc (100 * century), hfirst]
  omega

end MarchDay

end Gregorian
