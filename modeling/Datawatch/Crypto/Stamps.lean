import Datawatch.Calendar.Inverse
import Datawatch.Crypto.Quote

/-!
# Stamps

A quote's time cut at its separators, and read wherever its fields are integers, whatever else
it says.
-/

namespace Datawatch
namespace Crypto

open Library Library.Text
open Library.Gregorian (IsDate)
open Calendar (microsPerDay daysFromCivil midnightOf)

/-- A text cut at its separators, whatever stands between them. -/
structure Stamp where
  year : Text
  month : Text
  day : Text
  /-- The parts of its date after the third. -/
  moreDate : List Text
  hour : Text
  minute : Text
  second : Text
  /-- The parts of its time after the third. -/
  moreTime : List Text
  fraction : Option Text
  /-- How often `Z` stands at its end. -/
  zones : Nat
deriving DecidableEq

namespace Stamp

/-- The stamp a text is. -/
def ofText (text : Text) : Option Stamp :=
  (splitOnce 'T' text).bind fun parts =>
    let time := trimEnd 'Z' parts.2
    match parts.1.splitOn '-', (((splitOnce '.' time).map Prod.fst).getD time).splitOn ':' with
    | year :: month :: day :: moreDate, hour :: minute :: second :: moreTime =>
        some
          { year := year
            month := month
            day := day
            moreDate := moreDate
            hour := hour
            minute := minute
            second := second
            moreTime := moreTime
            fraction := (splitOnce '.' time).map Prod.snd
            zones := trailing 'Z' parts.2 }
    | _, _ => none

/-- A stamp's fields are integers, and its date one of the calendar. -/
structure Reads (stamp : Stamp) (year month day : Nat) (hour minute second : Int) : Prop where
  isYear : parseSigned 64 stamp.year = some (year : Int)
  isMonth : parseUnsigned 32 stamp.month = some month
  isDay : parseUnsigned 32 stamp.day = some day
  isDate : IsDate year month day
  fourDigits : year < 10 ^ 4
  isHour : parseSigned 64 stamp.hour = some hour
  isMinute : parseSigned 64 stamp.minute = some minute
  isSecond : parseSigned 64 stamp.second = some second

/-- A stamp's fields that are two characters wide. -/
def narrow (stamp : Stamp) : List Text :=
  [stamp.month, stamp.day, stamp.hour, stamp.minute, stamp.second]

/-- A stamp says nothing but its fields, one `Z` and a fraction's digits. -/
structure IsPlain (stamp : Stamp) : Prop where
  yearWidth : stamp.year.length = 4
  widths : ∀ field ∈ stamp.narrow, field.length = 2
  unsigned : ∀ field ∈ stamp.year :: stamp.narrow, ¬ Signed field
  nothingMore : stamp.moreDate = [] ∧ stamp.moreTime = []
  fraction : ∀ digits, stamp.fraction = some digits →
    digits ≠ [] ∧ digits.all Char.isDigit = true
  zone : stamp.zones = 1

end Stamp

/-- An integer without a minus sign is a natural number. -/
theorem exists_nat_of_parseSigned {bits : Nat} {text : Text} {value : Int}
    (noMinus : '-' ∉ text) (parsed : parseSigned bits text = some value) :
    ∃ natural : Nat, value = natural := by
  obtain ⟨read, _⟩ := Option.filter_eq_some_iff.mp parsed
  split at read
  · exact absurd List.mem_cons_self noMinus
  · obtain ⟨natural, _, rfl⟩ := Option.map_eq_some_iff.mp read
    exact ⟨natural, rfl⟩
  · obtain ⟨natural, _, rfl⟩ := Option.map_eq_some_iff.mp read
    exact ⟨natural, rfl⟩

/-- A number takes at least its width in characters. -/
theorem le_length_padNat (width value : Nat) : width ≤ (padNat width value).length := by
  rw [padNat, List.length_append, List.length_replicate]
  omega

theorem monthLength_le (year : Int) (month : Nat) : Gregorian.monthLength year month ≤ 31 := by
  unfold Gregorian.monthLength
  split
  · split
    · decide
    · decide
  · split
    · decide
    · exact Nat.le_refl 31

/-- Texts of a date's widths are spelled as one. -/
theorem isSpelled_append {year month day : Text} (yearLength : year.length = 4)
    (monthLength : month.length = 2) (dayLength : day.length = 2) :
    Calendar.IsSpelled (year ++ '-' :: month ++ '-' :: day) := by
  match year, yearLength, month, monthLength, day, dayLength with
  | [_, _, _, _], _, [_, _], _, [_, _], _ => exact ⟨rfl, rfl, rfl⟩

/-- A padded date is read where the calendar has it and four digits hold its year. -/
theorem midnightOf_padded_iff {year month day : Nat} {midnight : Int} :
    midnightOf (padInt 4 year ++ '-' :: padNat 2 month ++ '-' :: padNat 2 day) = some midnight ↔
      IsDate year month day ∧ year < 10 ^ 4 ∧
        midnight = daysFromCivil year month day * microsPerDay := by
  have yearText : padInt 4 year = padNat 4 year := rfl
  rw [yearText]
  constructor
  · intro read
    obtain ⟨year', month', day', ⟨spelled, isYear, isMonth, isDay, isDate⟩, rfl⟩ :=
      Calendar.midnightOf_eq_some_iff.mp read
    have whole := spelled.1
    simp only [List.length_append, List.length_cons] at whole
    have yearLeast := le_length_padNat 4 year
    have monthLeast := le_length_padNat 2 month
    have dayLeast := le_length_padNat 2 day
    have yearLength : (padNat 4 year).length = 4 := by omega
    have monthLength : (padNat 2 month).length = 2 := by omega
    have dayLength : (padNat 2 day).length = 2 := by omega
    obtain ⟨yearField, monthField, dayField⟩ :=
      Calendar.fields_append yearLength monthLength dayLength
    have fourDigits := (length_padNat_eq_iff (by decide)).mp yearLength
    have twoDigits := (length_padNat_eq_iff (by decide)).mp monthLength
    have twoDigits' := (length_padNat_eq_iff (by decide)).mp dayLength
    rw [yearField, ← yearText, parseSigned_padInt (by omega) (by omega)] at isYear
    rw [monthField, parseUnsigned_padNat (by omega)] at isMonth
    rw [dayField, parseUnsigned_padNat (by omega)] at isDay
    cases isYear
    cases isMonth
    cases isDay
    exact ⟨isDate, fourDigits, rfl⟩
  · rintro ⟨isDate, fourDigits, rfl⟩
    have monthAtMost := isDate.monthAtMost
    have dayAtMost : day ≤ 31 := Nat.le_trans isDate.dayAtMost (monthLength_le _ _)
    have yearLength : (padNat 4 year).length = 4 := (length_padNat_eq_iff (by decide)).mpr fourDigits
    have monthLength : (padNat 2 month).length = 2 :=
      (length_padNat_eq_iff (by decide)).mpr (by omega)
    have dayLength : (padNat 2 day).length = 2 :=
      (length_padNat_eq_iff (by decide)).mpr (by omega)
    obtain ⟨yearField, monthField, dayField⟩ :=
      Calendar.fields_append yearLength monthLength dayLength
    refine Calendar.midnightOf_eq_some_iff.mpr
      ⟨year, month, day, ⟨isSpelled_append yearLength monthLength dayLength, ?_, ?_, ?_,
        isDate⟩, rfl⟩
    · rw [yearField, ← yearText, parseSigned_padInt (by omega) (by omega)]
    · rw [monthField, parseUnsigned_padNat (by omega)]
    · rw [dayField, parseUnsigned_padNat (by omega)]

/-- What a date's first three parts have to be. -/
theorem readDate_eq_some_iff {date : Text} {midnight : Int} :
    readDate date = some midnight ↔ ∃ yearPart monthPart dayPart more,
      ∃ year month day : Nat, date.splitOn '-' = yearPart :: monthPart :: dayPart :: more ∧
        parseSigned 64 yearPart = some (year : Int) ∧ parseUnsigned 32 monthPart = some month ∧
        parseUnsigned 32 dayPart = some day ∧ IsDate year month day ∧ year < 10 ^ 4 ∧
        midnight = daysFromCivil year month day * microsPerDay := by
  constructor
  · intro read
    unfold readDate at read
    split at read
    · rename_i yearPart monthPart dayPart more isSplit
      simp only [Option.bind_eq_some_iff] at read
      obtain ⟨value, isYear, month, isMonth, day, isDay, isMidnight⟩ := read
      obtain ⟨year, rfl⟩ := exists_nat_of_parseSigned
        (not_mem_of_mem_splitOn (by rw [isSplit]; exact List.mem_cons_self)) isYear
      obtain ⟨isDate, fourDigits, rfl⟩ := midnightOf_padded_iff.mp isMidnight
      exact ⟨yearPart, monthPart, dayPart, more, year, month, day, isSplit, isYear, isMonth, isDay,
        isDate, fourDigits, rfl⟩
    · cases read
  · rintro ⟨yearPart, monthPart, dayPart, more, year, month, day, isSplit, isYear, isMonth, isDay,
      isDate, fourDigits, rfl⟩
    rw [readDate, isSplit]
    simp only [isYear, isMonth, isDay, Option.bind_some]
    exact midnightOf_padded_iff.mpr ⟨isDate, fourDigits, rfl⟩

/-- What a time's first three parts have to be. -/
theorem readClock_eq_some_iff {clock : Text} {hour minute second : Int} :
    readClock clock = some (hour, minute, second) ↔ ∃ hourPart minutePart secondPart more,
      clock.splitOn ':' = hourPart :: minutePart :: secondPart :: more ∧
        parseSigned 64 hourPart = some hour ∧ parseSigned 64 minutePart = some minute ∧
        parseSigned 64 secondPart = some second := by
  constructor
  · intro read
    unfold readClock at read
    split at read
    · rename_i hourPart minutePart secondPart more isSplit
      simp only [Option.bind_eq_some_iff, Option.some.injEq, Prod.mk.injEq] at read
      obtain ⟨_, isHour, _, isMinute, _, isSecond, rfl, rfl, rfl⟩ := read
      exact ⟨hourPart, minutePart, secondPart, more, isSplit, isHour, isMinute, isSecond⟩
    · cases read
  · rintro ⟨hourPart, minutePart, secondPart, more, isSplit, isHour, isMinute, isSecond⟩
    rw [readClock, isSplit]
    simp only [isHour, isMinute, isSecond, Option.bind_some]

namespace Stamp

/-- A text's stamp is what stands between its separators. -/
theorem ofText_eq_some_iff {text : Text} {stamp : Stamp} :
    ofText text = some stamp ↔ ∃ date rest, splitOnce 'T' text = some (date, rest) ∧
      date.splitOn '-' = stamp.year :: stamp.month :: stamp.day :: stamp.moreDate ∧
      (((splitOnce '.' (trimEnd 'Z' rest)).map Prod.fst).getD (trimEnd 'Z' rest)).splitOn ':' =
        stamp.hour :: stamp.minute :: stamp.second :: stamp.moreTime ∧
      stamp.fraction = (splitOnce '.' (trimEnd 'Z' rest)).map Prod.snd ∧
      stamp.zones = trailing 'Z' rest := by
  unfold ofText
  rw [Option.bind_eq_some_iff]
  constructor
  · rintro ⟨⟨date, rest⟩, isSplit, cut⟩
    simp only at cut
    split at cut
    · rename_i isDate isClock
      cases cut
      exact ⟨date, rest, isSplit, isDate, isClock, rfl, rfl⟩
    · cases cut
  · rintro ⟨date, rest, isSplit, isDate, isClock, isFraction, isZone⟩
    refine ⟨(date, rest), isSplit, ?_⟩
    simp only [isDate, isClock]
    rw [← isFraction, ← isZone]

end Stamp

/-- A stamp that can be read is added up. -/
theorem atMicros_of_reads {text : Text} {stamp : Stamp} {year month day : Nat}
    {hour minute second : Int} (cut : Stamp.ofText text = some stamp)
    (reads : stamp.Reads year month day hour minute second) :
    (BestBidAsk.mk (some text)).atMicros =
      (momentOf (daysFromCivil year month day * microsPerDay) hour minute second
        (fractionMicros (stamp.fraction.getD []))).bind fun moment => .returns (some moment) := by
  obtain ⟨date, rest, isSplit, isDate, isClock, isFraction, _⟩ := Stamp.ofText_eq_some_iff.mp cut
  have date := readDate_eq_some_iff.mpr ⟨_, _, _, _, _, _, _, isDate, reads.isYear, reads.isMonth,
    reads.isDay, reads.isDate, reads.fourDigits, rfl⟩
  have clock := readClock_eq_some_iff.mpr ⟨_, _, _, _, isClock, reads.isHour, reads.isMinute,
    reads.isSecond⟩
  unfold BestBidAsk.atMicros
  rw [isFraction]
  simp only [isSplit]
  cases isPoint : splitOnce '.' (trimEnd 'Z' rest) with
  | none =>
      rw [isPoint] at clock
      simp only [Option.map_none, Option.getD_none] at clock ⊢
      simp only [clock, date]
  | some parts =>
      rw [isPoint] at clock
      simp only [Option.map_some, Option.getD_some] at clock ⊢
      simp only [clock, date]

/-- What is no stamp that can be read is no time. -/
theorem atMicros_of_unread {text : Text}
    (unread : ∀ stamp year month day hour minute second, Stamp.ofText text = some stamp →
      ¬ stamp.Reads year month day hour minute second) :
    (BestBidAsk.mk (some text)).atMicros = .returns none := by
  unfold BestBidAsk.atMicros
  simp only
  split
  · rfl
  · rename_i date rest isSplit
    split
    · rename_i hour minute second midnight isClock isDate
      obtain ⟨yearPart, monthPart, dayPart, more, year, month, day, dateParts, isYear, isMonth,
        isDay, isCivil, fourDigits, _⟩ := readDate_eq_some_iff.mp isDate
      obtain ⟨hourPart, minutePart, secondPart, moreTime, clockParts, isHour, isMinute,
        isSecond⟩ := readClock_eq_some_iff.mp isClock
      have sameClock : ((splitOnce '.' (trimEnd 'Z' rest)).map Prod.fst).getD (trimEnd 'Z' rest) =
          ((splitOnce '.' (trimEnd 'Z' rest)).getD (trimEnd 'Z' rest, [])).1 := by
        cases splitOnce '.' (trimEnd 'Z' rest) with
        | none => rfl
        | some parts => rfl
      refine absurd ?_ (unread ⟨yearPart, monthPart, dayPart, more, hourPart, minutePart,
        secondPart, moreTime, _, _⟩ year month day hour minute second
        (Stamp.ofText_eq_some_iff.mpr ⟨date, rest, isSplit, dateParts, ?_, rfl, rfl⟩))
      · exact ⟨isYear, isMonth, isDay, isCivil, fourDigits, isHour, isMinute, isSecond⟩
      · rw [sameClock]
        exact clockParts
    · rfl

end Crypto
end Datawatch
