import Mathlib.Data.Int.Basic
import Mathlib.Tactic.IntervalCases

/-!
# The Gregorian calendar

The proleptic Gregorian calendar by its own rules: which years leap, how long
each month is, and the number of days before a date.
-/

namespace Library
namespace Gregorian

/-- A year leaps every fourth year, save the centuries that are not fourth centuries. -/
def IsLeap (year : Int) : Prop := year % 4 = 0 ∧ (year % 100 ≠ 0 ∨ year % 400 = 0)

instance (year : Int) : Decidable (IsLeap year) :=
  inferInstanceAs (Decidable (_ ∧ _))

/-- The days of a month. -/
def monthLength (year : Int) (month : Nat) : Nat :=
  if month = 2 then if IsLeap year then 29 else 28
  else if month = 4 ∨ month = 6 ∨ month = 9 ∨ month = 11 then 30 else 31

/-- A year, month and day that the calendar has. -/
structure IsDate (year : Int) (month day : Nat) : Prop where
  /-- Months are counted from one. -/
  monthPositive : 1 ≤ month
  monthAtMost : month ≤ 12
  /-- So are days. -/
  dayPositive : 1 ≤ day
  dayAtMost : day ≤ monthLength year month

theorem isDate_iff {year : Int} {month day : Nat} :
    IsDate year month day ↔
      (1 ≤ month ∧ month ≤ 12) ∧ 1 ≤ day ∧ day ≤ monthLength year month :=
  ⟨fun date => ⟨⟨date.monthPositive, date.monthAtMost⟩, date.dayPositive, date.dayAtMost⟩,
    fun ⟨⟨positive, atMost⟩, dayPositive, dayAtMost⟩ =>
      ⟨positive, atMost, dayPositive, dayAtMost⟩⟩

instance (year : Int) (month day : Nat) : Decidable (IsDate year month day) :=
  decidable_of_iff _ isDate_iff.symm

/-- Days before a year, counted from the first of January of year one. -/
def daysBeforeYear (year : Int) : Int :=
  365 * (year - 1) + (year - 1) / 4 - (year - 1) / 100 + (year - 1) / 400

/-- Days of a year before one of its months. -/
def daysBeforeMonth (year : Int) : Nat → Nat
  | 0 => 0
  | month + 1 => daysBeforeMonth year month + if month = 0 then 0 else monthLength year month

/-- Days before a date, counted from the first of January of year one. -/
def dayNumber (year : Int) (month day : Nat) : Int :=
  daysBeforeYear year + daysBeforeMonth year month + day - 1

/-- A year is as long as its months. -/
theorem daysBeforeYear_succ (year : Int) :
    daysBeforeYear (year + 1) = daysBeforeYear year + daysBeforeMonth year 13 := by
  have months : (daysBeforeMonth year 13 : Int) = if IsLeap year then 366 else 365 := by
    by_cases leap : IsLeap year <;> simp [daysBeforeMonth, monthLength, leap]
  rw [months, daysBeforeYear, daysBeforeYear]
  by_cases leap : IsLeap year
  · rw [if_pos leap]
    simp only [IsLeap] at leap
    omega
  · rw [if_neg leap]
    simp only [IsLeap] at leap
    omega

theorem daysBeforeYear_mono {first second : Int} (before : first ≤ second) :
    daysBeforeYear first ≤ daysBeforeYear second := by
  simp only [daysBeforeYear]
  omega

theorem daysBeforeMonth_mono (year : Int) {first second : Nat} (before : first ≤ second) :
    daysBeforeMonth year first ≤ daysBeforeMonth year second := by
  induction before with
  | refl => exact Nat.le_refl _
  | step _ inductionHypothesis => exact Nat.le_trans inductionHypothesis (Nat.le_add_right _ _)

/-- A date lies within its month. -/
theorem IsDate.day_lt {year : Int} {month day : Nat} (date : IsDate year month day) :
    daysBeforeMonth year month + day ≤ daysBeforeMonth year (month + 1) := by
  have positive := date.monthPositive
  rw [daysBeforeMonth, if_neg (by omega)]
  exact Nat.add_le_add_left date.dayAtMost _

/-- A date lies within its year. -/
theorem IsDate.dayNumber_lt {year : Int} {month day : Nat} (date : IsDate year month day) :
    dayNumber year month day < daysBeforeYear (year + 1) := by
  have inMonth := date.day_lt
  have inYear : daysBeforeMonth year (month + 1) ≤ daysBeforeMonth year 13 :=
    daysBeforeMonth_mono year (Nat.succ_le_succ date.monthAtMost)
  rw [dayNumber, daysBeforeYear_succ]
  omega

theorem IsDate.daysBeforeYear_le {year : Int} {month day : Nat}
    (date : IsDate year month day) : daysBeforeYear year ≤ dayNumber year month day := by
  have positive := date.dayPositive
  rw [dayNumber]
  omega

/-- The order of dates: by year, then month, then day. -/
def Before (first second : Int × Nat × Nat) : Prop :=
  first.1 < second.1 ∨ first.1 = second.1 ∧
    (first.2.1 < second.2.1 ∨ first.2.1 = second.2.1 ∧ first.2.2 < second.2.2)

/-- An earlier date has fewer days before it. -/
theorem dayNumber_lt_of_before {first second : Int × Nat × Nat}
    (firstDate : IsDate first.1 first.2.1 first.2.2)
    (secondDate : IsDate second.1 second.2.1 second.2.2) (before : Before first second) :
    dayNumber first.1 first.2.1 first.2.2 < dayNumber second.1 second.2.1 second.2.2 := by
  rcases before with year | ⟨sameYear, month | ⟨sameMonth, day⟩⟩
  · calc dayNumber first.1 first.2.1 first.2.2
        < daysBeforeYear (first.1 + 1) := firstDate.dayNumber_lt
      _ ≤ daysBeforeYear second.1 := daysBeforeYear_mono year
      _ ≤ dayNumber second.1 second.2.1 second.2.2 := secondDate.daysBeforeYear_le
  · have inMonth := firstDate.day_lt
    have later : daysBeforeMonth first.1 (first.2.1 + 1) ≤ daysBeforeMonth first.1 second.2.1 :=
      daysBeforeMonth_mono first.1 month
    have positive := secondDate.dayPositive
    rw [dayNumber, dayNumber, ← sameYear]
    omega
  · rw [dayNumber, dayNumber, ← sameYear, ← sameMonth]
    omega

theorem before_or_eq_or_before (first second : Int × Nat × Nat) :
    Before first second ∨ first = second ∨ Before second first := by
  simp only [Before, Prod.ext_iff]
  omega

/-- **Days before a date are ordered as dates are.** -/
theorem dayNumber_lt_iff {first second : Int × Nat × Nat}
    (firstDate : IsDate first.1 first.2.1 first.2.2)
    (secondDate : IsDate second.1 second.2.1 second.2.2) :
    dayNumber first.1 first.2.1 first.2.2 < dayNumber second.1 second.2.1 second.2.2 ↔
      Before first second := by
  constructor
  · intro earlier
    rcases before_or_eq_or_before first second with before | rfl | after
    · exact before
    · exact absurd earlier (Int.lt_irrefl _)
    · have later := dayNumber_lt_of_before secondDate firstDate after
      omega
  · exact dayNumber_lt_of_before firstDate secondDate

/-- A date is told by the days before it. -/
theorem eq_of_dayNumber_eq {first second : Int × Nat × Nat}
    (firstDate : IsDate first.1 first.2.1 first.2.2)
    (secondDate : IsDate second.1 second.2.1 second.2.2)
    (same : dayNumber first.1 first.2.1 first.2.2 = dayNumber second.1 second.2.1 second.2.2) :
    first = second := by
  rcases before_or_eq_or_before first second with before | equal | after
  · have earlier := dayNumber_lt_of_before firstDate secondDate before
    omega
  · exact equal
  · have later := dayNumber_lt_of_before secondDate firstDate after
    omega

end Gregorian
end Library
