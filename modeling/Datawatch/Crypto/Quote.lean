import Datawatch.Calendar
import Datawatch.Library.Attempt
import Datawatch.Library.Fields

/-!
# A polled venue's quotes

The time a quote states, read without a date library.
-/

namespace Datawatch
namespace Crypto

open Library Library.Text

/-- A number of sixty-four bits and a sign.  Beyond them the arithmetic overflows, which panics
where overflow is checked. -/
def checked (value : Int) : Attempt Int :=
  if -2 ^ 63 ≤ value ∧ value < 2 ^ 63 then .returns value else .panics

/-- A quote's own time, where the venue stated one. -/
structure BestBidAsk where
  timestamp : Option Text

/-- Midnight of a date's first three parts. -/
def readDate (date : Text) : Option Int :=
  match date.splitOn '-' with
  | yearPart :: monthPart :: dayPart :: _ =>
      (parseSigned 64 yearPart).bind fun year =>
        (parseUnsigned 32 monthPart).bind fun month =>
          (parseUnsigned 32 dayPart).bind fun day =>
            Calendar.midnightOf (padInt 4 year ++ '-' :: padNat 2 month ++ '-' :: padNat 2 day)
  | _ => none

/-- A time of day's first three parts. -/
def readClock (clock : Text) : Option (Int × Int × Int) :=
  match clock.splitOn ':' with
  | hourPart :: minutePart :: secondPart :: _ =>
      (parseSigned 64 hourPart).bind fun hour =>
        (parseSigned 64 minutePart).bind fun minute =>
          (parseSigned 64 secondPart).bind fun second => some (hour, minute, second)
  | _ => none

/-- A fraction's first six bytes as microseconds, zero where they are no number. -/
def fractionMicros (fraction : Text) : Int :=
  ((takeBytes 6 (padRight 6 fraction)).bind (parseSigned 64)).getD 0

/-- A moment of a day, as it is added up. -/
def momentOf (midnight hour minute second micros : Int) : Attempt Int :=
  (checked (hour * 3600)).bind fun hours =>
    (checked (minute * 60)).bind fun minutes =>
      (checked (hours + minutes)).bind fun whole =>
        (checked (whole + second)).bind fun seconds =>
          (checked (seconds * 1000000)).bind fun clock =>
            (checked (midnight + clock)).bind fun moment => checked (moment + micros)

/-- The venue's own time, where it stated one. -/
def BestBidAsk.atMicros (entry : BestBidAsk) : Attempt (Option Int) :=
  match entry.timestamp with
  | none => .returns none
  | some text =>
      match splitOnce 'T' text with
      | none => .returns none
      | some (date, rest) =>
          let time := trimEnd 'Z' rest
          let (clock, fraction) := (splitOnce '.' time).getD (time, [])
          match readClock clock, readDate date with
          | some (hour, minute, second), some midnight =>
              (momentOf midnight hour minute second (fractionMicros fraction)).bind fun moment =>
                .returns (some moment)
          | _, _ => .returns none

end Crypto
end Datawatch
