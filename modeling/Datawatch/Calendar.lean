import Mathlib.Data.Int.Basic
import Datawatch.Library.Text

/-!
# The civil calendar

`date_of` names the UTC day of a moment, and `midnight_of` reads the name back.
-/

namespace Datawatch
namespace Calendar

open Library
open Library.Text (padNat padInt parseUnsigned_padNat parseSigned_padInt length_padNat_eq_iff)

/-- Microseconds in a day. -/
def microsPerDay : Int := 86400000000

/-- A civil date, from days since the epoch. -/
def civilFromDays (days : Int) : Int × Nat × Nat :=
  let z := days + 719468
  let era := z / 146097
  let doe := z % 146097
  let yoe := (doe - doe / 1460 + doe / 36524 - doe / 146096) / 365
  let y := yoe + era * 400
  let doy := doe - (365 * yoe + yoe / 4 - yoe / 100)
  let mp := (5 * doy + 2) / 153
  let d := (doy - (153 * mp + 2) / 5 + 1).toNat
  let m := (if mp < 10 then mp + 3 else mp - 9).toNat
  (if m ≤ 2 then y + 1 else y, m, d)

/-- Days since the epoch, from a civil date. -/
def daysFromCivil (year : Int) (month day : Nat) : Int :=
  let y := if month ≤ 2 then year - 1 else year
  let era := y / 400
  let yoe := y - era * 400
  let m : Int := month
  let d : Int := day
  let doy := (153 * (if 2 < m then m - 3 else m + 9) + 2) / 5 + d - 1
  let doe := yoe * 365 + yoe / 4 - yoe / 100 + doy
  era * 146097 + doe - 719468

/-- The UTC date a receipt time falls on, as `YYYY-MM-DD`. -/
def dateOf (micros : Int) : Text :=
  let civil := civilFromDays (micros / microsPerDay)
  padInt 4 civil.1 ++ '-' :: padNat 2 civil.2.1 ++ '-' :: padNat 2 civil.2.2

/-- A date is one component of a path. -/
theorem slash_not_mem_dateOf (micros : Int) : '/' ∉ dateOf micros := by
  simp only [dateOf, List.mem_append, List.mem_cons, not_or]
  exact ⟨⟨Text.not_mem_padInt _ _ (by decide) (by decide), by decide,
    Text.not_mem_padNat _ _ (by decide)⟩, by decide, Text.not_mem_padNat _ _ (by decide)⟩

/-- Midnight UTC of a `YYYY-MM-DD` date, in microseconds. -/
def midnightOf (date : Text) : Option Int :=
  if date.length = 10 ∧ date[4]? = some '-' ∧ date[7]? = some '-' then
    (Text.parseSigned 64 (date.take 4)).bind fun y =>
      (Text.parseUnsigned 32 ((date.drop 5).take 2)).bind fun m =>
        (Text.parseUnsigned 32 ((date.drop 8).take 2)).bind fun d =>
          if (1 ≤ m ∧ m ≤ 12) ∧ 1 ≤ d then
            let days := daysFromCivil y m d
            if civilFromDays days = (y, m, d) then some (days * microsPerDay) else none
          else none
  else none

/-- The first moment of the UTC day a moment falls on. -/
def dayStart (micros : Int) : Int := micros / microsPerDay * microsPerDay

/-- The day of the year of a day of an era.  `century`, `cycle` and `year` count whole
centuries, four-year cycles and years, and the rest follows linearly. -/
theorem dayOfYear_bounds {doe yoe : Int} (atLeast : 0 ≤ doe) (below : doe < 146097)
    (isYear : yoe = (doe - doe / 1460 + doe / 36524 - doe / 146096) / 365) :
    0 ≤ doe - (365 * yoe + yoe / 4 - yoe / 100) ∧
      doe - (365 * yoe + yoe / 4 - yoe / 100) ≤ 365 := by
  obtain ⟨century, inCentury, isCentury, _, _, splitCentury⟩ :
      ∃ d x, doe / 36524 = d ∧ 0 ≤ x ∧ x < 36524 ∧ doe = 36524 * d + x :=
    ⟨doe / 36524, doe % 36524, rfl, by omega, by omega, by omega⟩
  obtain ⟨cycle, inCycle, _, _, splitCycle⟩ :
      ∃ k s, 0 ≤ s ∧ s < 1460 ∧ 24 * century + inCentury = 1460 * k + s :=
    ⟨(24 * century + inCentury) / 1460, (24 * century + inCentury) % 1460,
      by omega, by omega, by omega⟩
  obtain ⟨lastDay, isLastDay⟩ : ∃ e, doe / 146096 = e := ⟨_, rfl⟩
  have cycles : doe / 1460 = 25 * century + cycle := by omega
  have lastDayBounds : 0 ≤ lastDay ∧ lastDay ≤ 1 ∧ (lastDay = 1 → doe = 146096) := by omega
  have centuryBounds : 0 ≤ century ∧ century ≤ 4 := by omega
  have cycleBounds : 0 ≤ cycle ∧ cycle ≤ 25 := by omega
  rw [cycles, isCentury, isLastDay] at isYear
  obtain ⟨year, inYear, _, _, splitYear⟩ :
      ∃ j t, 0 ≤ t ∧ t < 365 ∧ inCycle - 24 * century - cycle - lastDay = 365 * j + t :=
    ⟨(inCycle - 24 * century - cycle - lastDay) / 365,
      (inCycle - 24 * century - cycle - lastDay) % 365, by omega, by omega, by omega⟩
  have whole : yoe = 100 * century + 4 * cycle + year := by omega
  have yearBounds : year = -1 ∨ year = 0 ∨ year = 1 ∨ year = 2 ∨ year = 3 := by omega
  clear isYear cycles isCentury isLastDay
  subst whole
  have leaps : (100 * century + 4 * cycle + year) / 4 = 25 * century + cycle + year / 4 := by
    omega
  have centuries : (100 * century + 4 * cycle + year) / 100 =
      century + (4 * cycle + year) / 100 := by omega
  rw [leaps, centuries]
  clear leaps centuries
  rcases yearBounds with rfl | rfl | rfl | rfl | rfl <;> omega

/-- The parts of a day's civil date: its day is day `doy` of a year opening in March, in
month `mp` of that year. -/
theorem civilFromDays_parts (days : Int) :
    ∃ era doe yoe doy mp : Int, days + 719468 = era * 146097 + doe ∧
      doy = doe - (365 * yoe + yoe / 4 - yoe / 100) ∧ mp = (5 * doy + 2) / 153 ∧
      (0 ≤ yoe ∧ yoe ≤ 399) ∧ (0 ≤ doy ∧ doy ≤ 365) ∧
      civilFromDays days =
        (if (if mp < 10 then mp + 3 else mp - 9).toNat ≤ 2 then yoe + era * 400 + 1
          else yoe + era * 400, (if mp < 10 then mp + 3 else mp - 9).toNat,
          (doy - (153 * mp + 2) / 5 + 1).toNat) := by
  have bounds := @dayOfYear_bounds ((days + 719468) % 146097) _ (by omega) (by omega) rfl
  exact ⟨(days + 719468) / 146097, (days + 719468) % 146097, _, _, _, by omega, rfl, rfl,
    by omega, bounds, rfl⟩

/-- A civil date's month and day are in their ranges. -/
theorem civilFromDays_bounds (days : Int) :
    1 ≤ (civilFromDays days).2.1 ∧ (civilFromDays days).2.1 ≤ 12 ∧
      1 ≤ (civilFromDays days).2.2 ∧ (civilFromDays days).2.2 ≤ 31 := by
  obtain ⟨era, doe, yoe, doy, mp, _, _, isMonth, _, bounds, parts⟩ := civilFromDays_parts days
  rw [parts]
  dsimp only
  split <;> omega

/-- A civil date is that of its own day number. -/
theorem daysFromCivil_civilFromDays (days : Int) :
    daysFromCivil (civilFromDays days).1 (civilFromDays days).2.1 (civilFromDays days).2.2 =
      days := by
  obtain ⟨era, doe, yoe, doy, mp, inEra, isDoy, isMonth, yearBounds, bounds, parts⟩ :=
    civilFromDays_parts days
  rw [parts]
  have monthBounds : 0 ≤ mp ∧ mp ≤ 11 := by omega
  have inMonth : 0 ≤ doy - (153 * mp + 2) / 5 := by omega
  have day : (((doy - (153 * mp + 2) / 5 + 1).toNat : Nat) : Int) =
      doy - (153 * mp + 2) / 5 + 1 := by omega
  -- March opens the calendar's year, so January and February belong to the one before.
  by_cases early : mp < 10
  · have late : ¬ (mp + 3).toNat ≤ 2 := by omega
    have month : ((mp + 3).toNat : Int) = mp + 3 := by omega
    have after : (2 : Int) < mp + 3 := by omega
    have sameEra : (yoe + era * 400) / 400 = era := by omega
    have sameYear : yoe + era * 400 - era * 400 = yoe := by omega
    simp only [daysFromCivil, if_pos early, if_neg late, month, if_pos after, sameEra, sameYear,
      day]
    omega
  · have first : (mp - 9).toNat ≤ 2 := by omega
    have month : ((mp - 9).toNat : Int) = mp - 9 := by omega
    have before : ¬ (2 : Int) < mp - 9 := by omega
    have sameEra : (yoe + era * 400 + 1 - 1) / 400 = era := by omega
    have sameYear : yoe + era * 400 + 1 - 1 - era * 400 = yoe := by omega
    simp only [daysFromCivil, if_neg early, if_pos first, month, if_neg before, sameEra,
      sameYear, day]
    omega

/-- A year takes four characters exactly from -999 to 9999. -/
theorem length_padInt_four {year : Int} :
    (padInt 4 year).length = 4 ↔ -1000 < year ∧ year < 10000 := by
  cases year with
  | ofNat natural =>
      rw [padInt, length_padNat_eq_iff (by decide), Int.ofNat_eq_natCast]
      omega
  | negSucc natural =>
      have digits : (padNat (4 - 1) (natural + 1)).length = 4 - 1 ↔ natural + 1 < 10 ^ (4 - 1) :=
        length_padNat_eq_iff (by decide)
      simp only [padInt, List.length_cons, Int.negSucc_eq]
      omega

/-- A date of a year of four characters reads back as the midnight of its day. -/
theorem midnightOf_dateOf {micros : Int}
    (year : (padInt 4 (civilFromDays (micros / microsPerDay)).1).length = 4) :
    midnightOf (dateOf micros) = some (dayStart micros) := by
  obtain ⟨civil, isCivil⟩ : ∃ civil, civilFromDays (micros / microsPerDay) = civil := ⟨_, rfl⟩
  obtain ⟨monthLower, monthUpper, dayLower, dayUpper⟩ :=
    civilFromDays_bounds (micros / microsPerDay)
  have inverse := daysFromCivil_civilFromDays (micros / microsPerDay)
  rw [isCivil] at year monthLower monthUpper dayLower dayUpper inverse
  obtain ⟨y, month, day⟩ := civil
  simp only at year monthLower monthUpper dayLower dayUpper inverse
  obtain ⟨yearLower, yearUpper⟩ := length_padInt_four.mp year
  have monthLength : (padNat 2 month).length = 2 :=
    (length_padNat_eq_iff (by decide)).mpr (by omega)
  have dayLength : (padNat 2 day).length = 2 := (length_padNat_eq_iff (by decide)).mpr (by omega)
  have dateEq : dateOf micros = padInt 4 y ++ '-' :: padNat 2 month ++ '-' :: padNat 2 day := by
    simp only [dateOf, isCivil]
  have front : (padInt 4 y ++ '-' :: padNat 2 month).length = 7 := by simp [year, monthLength]
  have yearPart : (padInt 4 y ++ '-' :: padNat 2 month ++ '-' :: padNat 2 day).take 4 =
      padInt 4 y := by
    rw [List.append_assoc, List.take_left' year]
  have monthPart : ((padInt 4 y ++ '-' :: padNat 2 month ++ '-' :: padNat 2 day).drop
      5).take 2 = padNat 2 month := by
    rw [List.append_assoc, List.drop_append, year,
      List.drop_eq_nil_of_le (by omega : (padInt 4 y).length ≤ 5)]
    exact List.take_left' monthLength
  have dayPart : ((padInt 4 y ++ '-' :: padNat 2 month ++ '-' :: padNat 2 day).drop
      8).take 2 = padNat 2 day := by
    rw [List.drop_append, front, List.drop_eq_nil_of_le (by omega)]
    exact List.take_of_length_le (Nat.le_of_eq dayLength)
  have shape : (dateOf micros).length = 10 ∧ (dateOf micros)[4]? = some '-' ∧
      (dateOf micros)[7]? = some '-' := by
    rw [dateEq]
    refine ⟨by simp [year, monthLength, dayLength], ?_, ?_⟩
    · rw [List.append_assoc, List.getElem?_append_right (by omega), year]
      rfl
    · rw [List.getElem?_append_right (by omega), front]
      rfl
  rw [midnightOf, if_pos shape, dateEq, yearPart, monthPart, dayPart,
    parseSigned_padInt (by omega) (by omega), parseUnsigned_padNat (by omega),
    parseUnsigned_padNat (by omega)]
  simp only [Option.bind_some]
  rw [if_pos ⟨⟨monthLower, monthUpper⟩, dayLower⟩, inverse, if_pos isCivil]
  rfl

/-- A date that reads back is of a year of four characters. -/
theorem year_of_midnightOf_dateOf {micros midnight : Int}
    (read : midnightOf (dateOf micros) = some midnight) :
    (padInt 4 (civilFromDays (micros / microsPerDay)).1).length = 4 := by
  obtain ⟨_, monthUpper, _, dayUpper⟩ := civilFromDays_bounds (micros / microsPerDay)
  have monthLength : (padNat 2 (civilFromDays (micros / microsPerDay)).2.1).length = 2 :=
    (length_padNat_eq_iff (by decide)).mpr (by omega)
  have dayLength : (padNat 2 (civilFromDays (micros / microsPerDay)).2.2).length = 2 :=
    (length_padNat_eq_iff (by decide)).mpr (by omega)
  unfold midnightOf at read
  split at read
  · rename_i shape
    have total := shape.1
    simp only [dateOf, List.length_append, List.length_cons, monthLength, dayLength] at total
    omega
  · cases read

/-- **A date that reads back is the midnight of the day it names.** -/
theorem eq_dayStart_of_midnightOf_dateOf {micros midnight : Int}
    (read : midnightOf (dateOf micros) = some midnight) : midnight = dayStart micros := by
  rw [midnightOf_dateOf (year_of_midnightOf_dateOf read)] at read
  exact (Option.some.inj read).symm

/-- A date reads back exactly where its year is written in four characters. -/
theorem isSome_midnightOf_dateOf {micros : Int} :
    (midnightOf (dateOf micros)).isSome ↔
      -1000 < (civilFromDays (micros / microsPerDay)).1 ∧
        (civilFromDays (micros / microsPerDay)).1 < 10000 := by
  rw [← length_padInt_four]
  constructor
  · intro readable
    obtain ⟨midnight, read⟩ := Option.isSome_iff_exists.mp readable
    exact year_of_midnightOf_dateOf read
  · intro year
    rw [midnightOf_dateOf year]
    rfl

/-- What a name reads back as starts a day of a year of four characters. -/
theorem exists_day_of_midnightOf {date : Text} {midnight : Int}
    (read : midnightOf date = some midnight) :
    ∃ days : Int, midnight = days * microsPerDay ∧
      (padInt 4 (civilFromDays days).1).length = 4 := by
  unfold midnightOf at read
  split at read
  · rename_i shape
    simp only [Option.bind_eq_some_iff] at read
    obtain ⟨year, yearRead, month, _, day, _, rest⟩ := read
    split at rest
    · split at rest
      · rename_i roundTrip
        refine ⟨_, (Option.some.inj rest).symm, ?_⟩
        rw [roundTrip]
        exact length_padInt_four.mpr
          (Text.bounds_of_parseSigned_four (by simp [shape.1]) yearRead)
      · cases rest
    · cases rest
  · cases read

/-- A day of a year of four characters is far from the ends of the clock. -/
theorem days_bounds {days : Int} (year : (padInt 4 (civilFromDays days).1).length = 4) :
    -2000000 < days ∧ days < 4000000 := by
  obtain ⟨yearLower, yearUpper⟩ := length_padInt_four.mp year
  obtain ⟨era, doe, yoe, doy, mp, inEra, isDoy, _, yearBounds, bounds, parts⟩ :=
    civilFromDays_parts days
  rw [parts] at yearLower yearUpper
  dsimp only at yearLower yearUpper
  split at yearLower <;> omega

/-- The midnight a name reads back as is a whole number of days, and so is its day's end. -/
theorem bounds_of_midnightOf {date : Text} {midnight : Int}
    (read : midnightOf date = some midnight) :
    midnight % microsPerDay = 0 ∧ -2 ^ 62 < midnight ∧ midnight + microsPerDay < 2 ^ 62 := by
  obtain ⟨days, rfl, year⟩ := exists_day_of_midnightOf read
  obtain ⟨lower, upper⟩ := days_bounds year
  simp only [microsPerDay]
  omega

/-- A moment of a day some name reads back as has a date that reads back as that day. -/
theorem midnightOf_dateOf_of_mem {date : Text} {midnight micros : Int}
    (read : midnightOf date = some midnight) (atLeast : midnight ≤ micros)
    (before : micros < midnight + microsPerDay) :
    midnightOf (dateOf micros) = some midnight := by
  obtain ⟨days, rfl, year⟩ := exists_day_of_midnightOf read
  have sameDay : micros / microsPerDay = days := by
    simp only [microsPerDay] at atLeast before ⊢
    omega
  rw [midnightOf_dateOf (by rwa [sameDay]), dayStart, sameDay]

/-- The moments of one day have one date. -/
theorem dateOf_eq_of_mem {date : Text} {midnight first second : Int}
    (read : midnightOf date = some midnight)
    (inFirst : midnight ≤ first ∧ first < midnight + microsPerDay)
    (inSecond : midnight ≤ second ∧ second < midnight + microsPerDay) :
    dateOf first = dateOf second := by
  obtain ⟨atMidnight, _, _⟩ := bounds_of_midnightOf read
  have sameDay : first / microsPerDay = second / microsPerDay := by
    simp only [microsPerDay] at atMidnight inFirst inSecond ⊢
    omega
  simp only [dateOf, sameDay]

/-- A day starts no later than each of its moments. -/
theorem dayStart_le (micros : Int) : dayStart micros ≤ micros := by
  simp only [dayStart, microsPerDay]
  omega

theorem lt_dayStart_add (micros : Int) : micros < dayStart micros + microsPerDay := by
  simp only [dayStart, microsPerDay]
  omega

example : dateOf 1758326400000000 = "2025-09-20".toList := by decide +kernel

end Calendar
end Datawatch
