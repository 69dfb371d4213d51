import Datawatch.Calendar
import Datawatch.Library.Digits
import Datawatch.Library.Gregorian

/-!
# The calendar against its inverse

`midnight_of` reads back every name `date_of` gives in the years of four digits,
and besides them the same dates spelled with a sign in a field.
-/

namespace Datawatch
namespace Calendar

open Library
open Library.Gregorian
open Library.Text

/-- Day numbers count the days before a date. -/
theorem daysFromCivil_eq {year : Int} {month day : Nat} (positive : 1 ≤ month)
    (atMost : month ≤ 12) :
    daysFromCivil year month day = dayNumber year month day - 719162 := by
  simp only [daysFromCivil, dayNumber, daysBeforeYear]
  by_cases leap : IsLeap year
  · interval_cases month <;> simp [daysBeforeMonth, monthLength, leap] <;>
      simp only [IsLeap] at leap <;> omega
  · interval_cases month <;> simp [daysBeforeMonth, monthLength, leap] <;>
      simp only [IsLeap] at leap <;> omega

/-- Only a leap year's March year has a last day of February. -/
theorem leap_of_dayOfYear {doe yoe : Int} (atLeast : 0 ≤ doe) (below : doe < 146097)
    (isYear : yoe = (doe - doe / 1460 + doe / 36524 - doe / 146096) / 365)
    (last : doe - (365 * yoe + yoe / 4 - yoe / 100) = 365) : IsLeap (yoe + 1) := by
  obtain ⟨century, inCentury, isCentury, _, _, splitCentury⟩ :
      ∃ d x, doe / 36524 = d ∧ 0 ≤ x ∧ x < 36524 ∧ doe = 36524 * d + x :=
    ⟨doe / 36524, doe % 36524, rfl, by omega, by omega, by omega⟩
  obtain ⟨cycle, inCycle, _, _, splitCycle⟩ :
      ∃ k s, 0 ≤ s ∧ s < 1460 ∧ 24 * century + inCentury = 1460 * k + s :=
    ⟨(24 * century + inCentury) / 1460, (24 * century + inCentury) % 1460,
      by omega, by omega, by omega⟩
  obtain ⟨lastDay, isLastDay⟩ : ∃ e, doe / 146096 = e := ⟨_, rfl⟩
  have cycles : doe / 1460 = 25 * century + cycle := by omega
  have lastDayBounds : 0 ≤ lastDay ∧ lastDay ≤ 1 ∧ (lastDay = 1 → doe = 146096) := by omega
  have centuryBounds : 0 ≤ century ∧ century ≤ 4 := by omega
  have cycleBounds : 0 ≤ cycle ∧ cycle ≤ 25 := by omega
  rw [cycles, isCentury, isLastDay] at isYear
  obtain ⟨year, inYear, _, _, splitYear⟩ :
      ∃ j t, 0 ≤ t ∧ t < 365 ∧ inCycle - 24 * century - cycle - lastDay = 365 * j + t :=
    ⟨(inCycle - 24 * century - cycle - lastDay) / 365,
      (inCycle - 24 * century - cycle - lastDay) % 365, by omega, by omega, by omega⟩
  have whole : yoe = 100 * century + 4 * cycle + year := by omega
  have yearBounds : year = -1 ∨ year = 0 ∨ year = 1 ∨ year = 2 ∨ year = 3 := by omega
  clear isYear cycles isCentury isLastDay
  subst whole
  have leaps : (100 * century + 4 * cycle + year) / 4 = 25 * century + cycle + year / 4 := by
    omega
  have centuries : (100 * century + 4 * cycle + year) / 100 =
      century + (4 * cycle + year) / 100 := by omega
  rw [leaps, centuries] at last
  clear leaps centuries
  simp only [IsLeap]
  rcases yearBounds with rfl | rfl | rfl | rfl | rfl <;> omega

theorem isLeap_add_eras (year era : Int) : IsLeap (year + era * 400) ↔ IsLeap year := by
  simp only [IsLeap]
  omega

/-- Each month of a March year but the last ends where the next begins. -/
theorem day_le_monthLength {doy mp year : Int} (atLeast : 0 ≤ doy) (atMost : doy ≤ 365)
    (isMonth : mp = (5 * doy + 2) / 153)
    (last : doy = 365 → IsLeap (year + 1)) :
    (doy - (153 * mp + 2) / 5 + 1).toNat ≤
      monthLength (if (if mp < 10 then mp + 3 else mp - 9).toNat ≤ 2 then year + 1 else year)
        (if mp < 10 then mp + 3 else mp - 9).toNat := by
  have lower : 0 ≤ mp := by omega
  have upper : mp ≤ 11 := by omega
  by_cases february : mp = 11
  · subst february
    have isFebruary : monthLength (year + 1) 2 = if IsLeap (year + 1) then 29 else 28 := rfl
    simp only [show ¬ (11 : Int) < 10 by decide, if_false, show ((11 : Int) - 9).toNat = 2 from rfl,
      Nat.le_refl, if_true, isFebruary]
    split
    · omega
    · rename_i common
      have early : doy ≠ 365 := fun isLast => common (last isLast)
      omega
  · clear last
    interval_cases mp <;> simp [monthLength] <;> omega

/-- **A day's civil date is a date of the calendar.** -/
theorem isDate_civilFromDays (days : Int) :
    IsDate (civilFromDays days).1 (civilFromDays days).2.1 (civilFromDays days).2.2 := by
  obtain ⟨monthPositive, monthAtMost, dayPositive, dayAtMost⟩ := civilFromDays_bounds days
  have leap := @leap_of_dayOfYear ((days + 719468) % 146097) _ (by omega) (by omega) rfl
  have bounds := @dayOfYear_bounds ((days + 719468) % 146097) _ (by omega) (by omega) rfl
  refine ⟨monthPositive, monthAtMost, dayPositive, ?_⟩
  refine day_le_monthLength bounds.1 bounds.2 rfl ?_
  intro last
  rw [show ∀ year era : Int, year + era + 1 = year + 1 + era by intros; omega, isLeap_add_eras]
  exact leap last

/-- Real dates survive the trip to their day number and back. -/
theorem civilFromDays_daysFromCivil {year : Int} {month day : Nat}
    (date : IsDate year month day) :
    civilFromDays (daysFromCivil year month day) = (year, month, day) := by
  have inverse := daysFromCivil_civilFromDays (daysFromCivil year month day)
  have civil := isDate_civilFromDays (daysFromCivil year month day)
  rw [daysFromCivil_eq civil.monthPositive civil.monthAtMost] at inverse
  apply eq_of_dayNumber_eq civil date
  have number := @daysFromCivil_eq year month day date.monthPositive date.monthAtMost
  change dayNumber _ _ _ = dayNumber year month day
  omega

/-- **The round trip through the day number is what a month-length table says.** -/
theorem civilFromDays_daysFromCivil_iff {year : Int} {month day : Nat} :
    civilFromDays (daysFromCivil year month day) = (year, month, day) ↔
      IsDate year month day := by
  constructor
  · intro roundTrip
    have civil := isDate_civilFromDays (daysFromCivil year month day)
    rwa [roundTrip] at civil
  · exact civilFromDays_daysFromCivil

/-- Days are ordered as their civil dates. -/
theorem before_civilFromDays_iff (first second : Int) :
    Before (civilFromDays first) (civilFromDays second) ↔ first < second := by
  have firstDate := isDate_civilFromDays first
  have secondDate := isDate_civilFromDays second
  rw [← dayNumber_lt_iff firstDate secondDate]
  have firstInverse := daysFromCivil_civilFromDays first
  have secondInverse := daysFromCivil_civilFromDays second
  rw [daysFromCivil_eq firstDate.monthPositive firstDate.monthAtMost] at firstInverse
  rw [daysFromCivil_eq secondDate.monthPositive secondDate.monthAtMost] at secondInverse
  omega

/-- Ten characters, with a dash after the fourth and the seventh. -/
def IsSpelled (date : Text) : Prop :=
  date.length = 10 ∧ date[4]? = some '-' ∧ date[7]? = some '-'

/-- The characters of a date's year. -/
def yearField (date : Text) : Text := date.take 4

/-- The characters of its month. -/
def monthField (date : Text) : Text := (date.drop 5).take 2

/-- The characters of its day. -/
def dayField (date : Text) : Text := (date.drop 8).take 2

/-- A date's fields, as integers that the calendar has. -/
def Reads (date : Text) (year : Int) (month day : Nat) : Prop :=
  IsSpelled date ∧ parseSigned 64 (yearField date) = some year ∧
    parseUnsigned 32 (monthField date) = some month ∧
    parseUnsigned 32 (dayField date) = some day ∧ IsDate year month day

/-- A field of a date opens with a sign. -/
def HasSign (date : Text) : Prop :=
  Signed (yearField date) ∨ Signed (monthField date) ∨ Signed (dayField date)

instance (date : Text) : Decidable (HasSign date) := inferInstanceAs (Decidable (_ ∨ _))

/-- A date of the calendar, spelled with a sign in place of a field's first digit. -/
def SignedDate (date : Text) : Prop :=
  HasSign date ∧ ∃ year month day, Reads date year month day

/-- A moment of a year of four digits. -/
def InSpan (micros : Int) : Prop :=
  0 ≤ (civilFromDays (micros / microsPerDay)).1 ∧
    (civilFromDays (micros / microsPerDay)).1 ≤ 9999

/-- The first moment of a day. -/
def IsMidnight (micros : Int) : Prop := micros % microsPerDay = 0

/-- What `midnight_of` reads: the fields of a date the calendar has. -/
theorem midnightOf_eq_some_iff {date : Text} {midnight : Int} :
    midnightOf date = some midnight ↔
      ∃ year month day, Reads date year month day ∧
        midnight = daysFromCivil year month day * microsPerDay := by
  unfold midnightOf
  constructor
  · intro read
    split at read
    · rename_i spelled
      simp only [Option.bind_eq_some_iff] at read
      obtain ⟨year, isYear, month, isMonth, day, isDay, rest⟩ := read
      split at rest
      · split at rest
        · rename_i roundTrip
          exact ⟨year, month, day, ⟨spelled, isYear, isMonth, isDay,
            civilFromDays_daysFromCivil_iff.mp roundTrip⟩, (Option.some.inj rest).symm⟩
        · cases rest
      · cases rest
    · cases read
  · rintro ⟨year, month, day, ⟨⟨length, dashes⟩, isYear, isMonth, isDay, isDate⟩, rfl⟩
    simp only [yearField, monthField, dayField] at isYear isMonth isDay
    rw [if_pos ⟨length, dashes⟩, isYear, isMonth, isDay]
    simp only [Option.bind_some]
    rw [if_pos ⟨⟨isDate.monthPositive, isDate.monthAtMost⟩, isDate.dayPositive⟩,
      if_pos (civilFromDays_daysFromCivil isDate)]

/-- A spelled date is its fields with a dash between them. -/
theorem eq_fields_of_isSpelled {date : Text} (spelled : IsSpelled date) :
    date = yearField date ++ '-' :: monthField date ++ '-' :: dayField date := by
  obtain ⟨length, firstDash, secondDash⟩ := spelled
  match date, length with
  | [a, b, c, d, e, f, g, h, i, j], _ =>
      obtain rfl : e = '-' := Option.some.inj firstDash
      obtain rfl : h = '-' := Option.some.inj secondDash
      rfl

theorem length_fields {date : Text} (spelled : IsSpelled date) :
    (yearField date).length = 4 ∧ (monthField date).length = 2 ∧ (dayField date).length = 2 := by
  simp [yearField, monthField, dayField, spelled.1]

/-- An unsigned integer without a sign is its value's digits. -/
theorem eq_padNat_of_parseUnsigned {bits value : Nat} {text : Text} (unsigned : ¬ Signed text)
    (parsed : parseUnsigned bits text = some value) : text = padNat text.length value := by
  rw [parseUnsigned_of_not_signed unsigned] at parsed
  exact eq_padNat_of_parseDigits (Option.filter_eq_some_iff.mp parsed).1

theorem eq_padInt_of_parseSigned {bits : Nat} {value : Int} {text : Text}
    (unsigned : ¬ Signed text) (parsed : parseSigned bits text = some value) :
    0 ≤ value ∧ text = padInt text.length value := by
  rw [parseSigned_of_not_signed unsigned] at parsed
  obtain ⟨natural, digits, rfl⟩ :=
    Option.map_eq_some_iff.mp (Option.filter_eq_some_iff.mp parsed).1
  exact ⟨Int.natCast_nonneg _, eq_padNat_of_parseDigits digits⟩

/-- **A date read without a sign is the name of the midnight it is read as.** -/
theorem dateOf_of_reads {date : Text} {year : Int} {month day : Nat}
    (reads : Reads date year month day) (unsigned : ¬ HasSign date) :
    date = dateOf (daysFromCivil year month day * microsPerDay) ∧
      InSpan (daysFromCivil year month day * microsPerDay) := by
  obtain ⟨spelled, isYear, isMonth, isDay, isDate⟩ := reads
  simp only [HasSign, not_or] at unsigned
  obtain ⟨yearLength, monthLength, dayLength⟩ := length_fields spelled
  obtain ⟨atLeast, yearText⟩ := eq_padInt_of_parseSigned unsigned.1 isYear
  have monthText := eq_padNat_of_parseUnsigned unsigned.2.1 isMonth
  have dayText := eq_padNat_of_parseUnsigned unsigned.2.2 isDay
  have atMost := (bounds_of_parseSigned_four yearLength isYear).2
  have sameDay : daysFromCivil year month day * microsPerDay / microsPerDay =
      daysFromCivil year month day := Int.mul_ediv_cancel _ (by decide)
  have civil := civilFromDays_daysFromCivil isDate
  rw [yearLength] at yearText
  rw [monthLength] at monthText
  rw [dayLength] at dayText
  refine ⟨?_, ?_⟩
  · rw [dateOf, sameDay, civil, ← yearText, ← monthText, ← dayText]
    exact eq_fields_of_isSpelled spelled
  · simp only [InSpan, sameDay, civil]
    omega

/-- Texts of a date's widths are the fields of the date they spell. -/
theorem fields_append {year month day : Text} (yearLength : year.length = 4)
    (monthLength : month.length = 2) (dayLength : day.length = 2) :
    yearField (year ++ '-' :: month ++ '-' :: day) = year ∧
      monthField (year ++ '-' :: month ++ '-' :: day) = month ∧
      dayField (year ++ '-' :: month ++ '-' :: day) = day := by
  match year, yearLength, month, monthLength, day, dayLength with
  | [_, _, _, _], _, [_, _], _, [_, _], _ => exact ⟨rfl, rfl, rfl⟩

/-- In the span, a year's digits are a natural number's. -/
theorem InSpan.exists_year {micros : Int} (inSpan : InSpan micros) :
    ∃ year : Nat, (civilFromDays (micros / microsPerDay)).1 = year ∧ year < 10 ^ 4 :=
  ⟨(civilFromDays (micros / microsPerDay)).1.toNat, (Int.toNat_of_nonneg inSpan.1).symm, by
    have atMost := inSpan.2
    omega⟩

/-- The name of a moment whose year is a natural number: three unsigned fields. -/
theorem dateOf_eq_of_year {micros : Int} {year : Nat}
    (isYear : (civilFromDays (micros / microsPerDay)).1 = year) :
    dateOf micros = padNat 4 year ++ '-' :: padNat 2 (civilFromDays (micros / microsPerDay)).2.1 ++
      '-' :: padNat 2 (civilFromDays (micros / microsPerDay)).2.2 := by
  rw [dateOf, isYear]
  rfl

/-- A month and a day take two digits each. -/
theorem length_month_day (days : Int) :
    (padNat 2 (civilFromDays days).2.1).length = 2 ∧
      (padNat 2 (civilFromDays days).2.2).length = 2 := by
  obtain ⟨_, monthAtMost, _, dayAtMost⟩ := civilFromDays_bounds days
  exact ⟨(length_padNat_eq_iff (by decide)).mpr (by omega),
    (length_padNat_eq_iff (by decide)).mpr (by omega)⟩

/-- The name of a moment of the span carries no sign. -/
theorem InSpan.not_hasSign {micros : Int} (inSpan : InSpan micros) :
    ¬ HasSign (dateOf micros) := by
  obtain ⟨year, isYear, fits⟩ := inSpan.exists_year
  have lengths := length_month_day (micros / microsPerDay)
  obtain ⟨yearText, monthText, dayText⟩ :=
    fields_append ((length_padNat_eq_iff (by decide)).mpr fits) lengths.1 lengths.2
  rw [HasSign, dateOf_eq_of_year isYear, yearText, monthText, dayText]
  rintro (signed | signed | signed)
  · exact not_signed_padNat _ _ signed
  · exact not_signed_padNat _ _ signed
  · exact not_signed_padNat _ _ signed

/-- A moment of the span has a name that reads back as its day's midnight. -/
theorem InSpan.midnightOf_dateOf {micros : Int} (inSpan : InSpan micros) :
    midnightOf (dateOf micros) = some (dayStart micros) := by
  obtain ⟨atLeast, atMost⟩ := inSpan
  exact Calendar.midnightOf_dateOf (length_padInt_four.mpr (by omega))

theorem IsMidnight.dayStart_eq {micros : Int} (midnight : IsMidnight micros) :
    dayStart micros = micros := by
  simp only [IsMidnight, dayStart, microsPerDay] at midnight ⊢
  omega

/-- **Unsigned names are read exactly as the midnights they name.** -/
theorem midnightOf_iff_of_not_hasSign {date : Text} (unsigned : ¬ HasSign date)
    {midnight : Int} :
    midnightOf date = some midnight ↔
      IsMidnight midnight ∧ InSpan midnight ∧ date = dateOf midnight := by
  constructor
  · intro read
    obtain ⟨year, month, day, reads, rfl⟩ := midnightOf_eq_some_iff.mp read
    obtain ⟨named, inSpan⟩ := dateOf_of_reads reads unsigned
    exact ⟨Int.mul_emod_left _ _, inSpan, named⟩
  · rintro ⟨isMidnight, inSpan, rfl⟩
    rw [inSpan.midnightOf_dateOf, isMidnight.dayStart_eq]

/-- What a spelling with a sign reads as never has that spelling. -/
theorem ne_dateOf_of_hasSign {date : Text} (signed : HasSign date) {micros : Int}
    (inSpan : InSpan micros) : date ≠ dateOf micros := by
  rintro rfl
  exact inSpan.not_hasSign signed

/-- **A text is read as its claimed inverse exactly where no sign stands in a date.** -/
theorem midnightOf_exact_iff (date : Text) :
    (∀ midnight, midnightOf date = some midnight ↔
      IsMidnight midnight ∧ InSpan midnight ∧ date = dateOf midnight) ↔
      ¬ SignedDate date := by
  constructor
  · rintro exactly ⟨signed, year, month, day, reads⟩
    obtain ⟨_, inSpan, named⟩ :=
      (exactly _).mp (midnightOf_eq_some_iff.mpr ⟨year, month, day, reads, rfl⟩)
    exact ne_dateOf_of_hasSign signed inSpan named
  · intro unsigned midnight
    by_cases signed : HasSign date
    · refine iff_of_false ?_ ?_
      · intro read
        obtain ⟨year, month, day, reads, _⟩ := midnightOf_eq_some_iff.mp read
        exact unsigned ⟨signed, year, month, day, reads⟩
      · rintro ⟨_, inSpan, named⟩
        exact ne_dateOf_of_hasSign signed inSpan named
    · exact midnightOf_iff_of_not_hasSign signed

/-- **Names of the span are ordered as the days they name.** -/
theorem dateOf_lt_dateOf_iff {first second : Int} (inFirst : InSpan first)
    (inSecond : InSpan second) :
    dateOf first < dateOf second ↔ first / microsPerDay < second / microsPerDay := by
  obtain ⟨firstYear, isFirst, firstFits⟩ := inFirst.exists_year
  obtain ⟨secondYear, isSecond, secondFits⟩ := inSecond.exists_year
  obtain ⟨_, firstMonth, _, firstDay⟩ := civilFromDays_bounds (first / microsPerDay)
  obtain ⟨_, secondMonth, _, secondDay⟩ := civilFromDays_bounds (second / microsPerDay)
  have yearLength : (padNat 4 firstYear).length = (padNat 4 secondYear).length := by
    rw [(length_padNat_eq_iff (by decide)).mpr firstFits,
      (length_padNat_eq_iff (by decide)).mpr secondFits]
  have monthLength := (length_month_day (first / microsPerDay)).1.trans
    (length_month_day (second / microsPerDay)).1.symm
  rw [← before_civilFromDays_iff, dateOf_eq_of_year isFirst, dateOf_eq_of_year isSecond, Before,
    isFirst, isSecond, List.append_assoc, List.append_assoc, append_lt_append_iff yearLength,
    padNat_lt_iff (by decide) firstFits secondFits, List.cons_append, List.cons_append,
    List.cons_lt_cons_self, append_lt_append_iff monthLength, List.cons_lt_cons_self,
    padNat_lt_iff (by decide) (by omega) (by omega),
    padNat_lt_iff (by decide) (by omega) (by omega), padNat_inj, padNat_inj]
  omega

/-- Midnights are ordered as their days. -/
theorem IsMidnight.lt_iff {first second : Int} (isFirst : IsMidnight first)
    (isSecond : IsMidnight second) :
    first / microsPerDay < second / microsPerDay ↔ first < second := by
  simp only [IsMidnight, microsPerDay] at isFirst isSecond ⊢
  omega

/-- **The calendar is inverted, kept within its day and kept in order, save for the dates
spelled with a sign.**  A text is read as its inverse says exactly where it is no date of the
calendar with a sign in a field; a moment's name is read as its own day's midnight; and
names without a sign are ordered as their midnights. -/
theorem calendar_inverse_iff (date : Text) :
    ((∀ midnight, midnightOf date = some midnight ↔
        IsMidnight midnight ∧ InSpan midnight ∧ date = dateOf midnight) ↔ ¬ SignedDate date) ∧
      (∀ micros, InSpan micros → ∃ midnight, midnightOf (dateOf micros) = some midnight ∧
        midnight ≤ micros ∧ micros < midnight + microsPerDay) ∧
      ∀ first second firstMidnight secondMidnight,
        ¬ SignedDate first → ¬ SignedDate second →
        midnightOf first = some firstMidnight → midnightOf second = some secondMidnight →
        (first < second ↔ firstMidnight < secondMidnight) := by
  refine ⟨midnightOf_exact_iff date, ?_, ?_⟩
  · intro micros inSpan
    exact ⟨dayStart micros, inSpan.midnightOf_dateOf, dayStart_le micros,
      lt_dayStart_add micros⟩
  · intro first second firstMidnight secondMidnight firstUnsigned secondUnsigned isFirst isSecond
    obtain ⟨firstAt, inFirst, rfl⟩ :=
      ((midnightOf_exact_iff first).mpr firstUnsigned firstMidnight).mp isFirst
    obtain ⟨secondAt, inSecond, rfl⟩ :=
      ((midnightOf_exact_iff second).mpr secondUnsigned secondMidnight).mp isSecond
    rw [dateOf_lt_dateOf_iff inFirst inSecond, firstAt.lt_iff secondAt]

/-- Around a leap day, names are read and ordered. -/
theorem calendar_inverse_leapDay :
    (∃ midnight, midnightOf (dateOf 1709164800000001) = some midnight ∧
      midnight ≤ 1709164800000001 ∧ 1709164800000001 < midnight + microsPerDay) ∧
      ("2024-02-29".toList < "2024-03-01".toList ↔
        (1709164800000000 : Int) < 1709251200000000) :=
  ⟨(calendar_inverse_iff []).2.1 _ ⟨by decide +kernel, by decide +kernel⟩,
    (calendar_inverse_iff []).2.2 _ _ _ _ (fun signed => absurd signed.1 (by decide))
      (fun signed => absurd signed.1 (by decide)) (by decide +kernel) (by decide +kernel)⟩

/-- **A sign may stand in a year.**  The first of January of the year 26, with a plus before
its year, is read as that day, whose name has no sign. -/
theorem signed_year_read :
    midnightOf "+026-01-01".toList = some (-61346678400000000) ∧
      dateOf (-61346678400000000) = "0026-01-01".toList ∧
      ¬ ∀ midnight, midnightOf "+026-01-01".toList = some midnight ↔
        IsMidnight midnight ∧ InSpan midnight ∧ "+026-01-01".toList = dateOf midnight := by
  have read : midnightOf "+026-01-01".toList = some (-61346678400000000) := by decide +kernel
  have named : dateOf (-61346678400000000) = "0026-01-01".toList := by decide +kernel
  refine ⟨read, named, ?_⟩
  intro exactly
  have same := ((exactly _).mp read).2.2
  rw [named] at same
  exact absurd same (by decide)

end Calendar
end Datawatch
