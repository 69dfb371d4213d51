import Datawatch.Crypto.Stamps

/-!
# Instants

The texts a quote's time should be read from, and those it is read from.
-/

namespace Datawatch
namespace Crypto

open Library Library.Text
open Library.Gregorian (IsDate dayNumber)
open Calendar (microsPerDay daysFromCivil midnightOf)

/-- A point and the digits after it, where there are any. -/
def pointed : Text → Text
  | [] => []
  | fraction => '.' :: fraction

/-- An instant of UTC, its second divided into any number of decimals. -/
structure Instant where
  year : Nat
  month : Nat
  day : Nat
  hour : Nat
  minute : Nat
  second : Nat
  fraction : Text
  /-- The calendar has the date. -/
  isDate : IsDate year month day
  fourDigits : year < 10 ^ 4
  /-- A day has the time. -/
  isTime : hour < 24 ∧ minute < 60 ∧ second < 60
  digits : fraction.all Char.isDigit = true

namespace Instant

/-- An instant's date. -/
def date (instant : Instant) : Text :=
  padNat 4 instant.year ++ '-' :: (padNat 2 instant.month ++ '-' :: padNat 2 instant.day)

/-- Its time of day, to the second. -/
def clock (instant : Instant) : Text :=
  padNat 2 instant.hour ++ ':' :: (padNat 2 instant.minute ++ ':' :: padNat 2 instant.second)

/-- An instant's name: a date, a time, an optional fraction and a `Z`. -/
def text (instant : Instant) : Text :=
  instant.date ++ 'T' :: (instant.clock ++ pointed instant.fraction ++ ['Z'])

/-- An instant in microseconds since the epoch, the rest of its fraction cut off. -/
def micros (instant : Instant) : Int :=
  (dayNumber instant.year instant.month instant.day - dayNumber 1970 1 1) * 86400000000 +
    (instant.hour * 3600 + instant.minute * 60 + instant.second) * 1000000 +
    (Nat.ofDigitChars 10 instant.fraction 0 * 10 ^ 6 / 10 ^ instant.fraction.length : Nat)

end Instant

/-- A text is read as the instant it names, and as none where it names none. -/
def ReadExactly (text : Text) : Prop :=
  (BestBidAsk.mk (some text)).atMicros.Satisfies fun answer => ∀ micros,
    answer = some micros ↔ ∃ instant : Instant, instant.text = text ∧ instant.micros = micros

/-- Where a text is a stamp that can be read, it is plain and its time is one of a day. -/
def Unambiguous (text : Text) : Prop :=
  ∀ stamp year month day hour minute second, Stamp.ofText text = some stamp →
    stamp.Reads year month day hour minute second →
    stamp.IsPlain ∧ hour < 24 ∧ minute < 60 ∧ second < 60

theorem isHex_of_isDigit {char : Char} (digit : char.isDigit = true) : isHex char = true := by
  simp only [Char.isDigit, Bool.and_eq_true, decide_eq_true_eq] at digit
  have decimal : '0' ≤ char ∧ char ≤ '9' := digit
  rw [isHex, hexDigit, if_pos decimal]
  rfl

/-- Digits are worth what is left of them and what is cut off. -/
theorem ofDigitChars_take {text : Text} (digits : text.all Char.isDigit = true) (count : Nat) :
    Nat.ofDigitChars 10 (text.take count) 0 =
      Nat.ofDigitChars 10 text 0 / 10 ^ (text.length - count) := by
  have cut : (text.drop count).all Char.isDigit = true := by
    rw [List.all_eq_true] at digits ⊢
    intro char isMember
    exact digits char (List.mem_of_mem_drop isMember)
  have bounds := ofDigitChars_bounds cut (Nat.ofDigitChars 10 (text.take count) 0)
  rw [← Nat.ofDigitChars_append, List.take_append_drop, List.length_drop] at bounds
  exact (Nat.div_eq_of_lt_le bounds.1 bounds.2).symm

/-- A fraction of digits is as many microseconds as it says, the rest of it cut off. -/
theorem fractionMicros_of_digits {fraction : Text} (digits : fraction.all Char.isDigit = true) :
    fractionMicros fraction =
      (Nat.ofDigitChars 10 fraction 0 * 10 ^ 6 / 10 ^ fraction.length : Nat) := by
  have padded : (padRight 6 fraction).all Char.isDigit = true := by
    rw [padRight, List.all_append, digits, Bool.true_and, List.all_eq_true]
    intro char isZero
    rw [List.eq_of_mem_replicate isZero]
    rfl
  have length : (padRight 6 fraction).length = fraction.length + (6 - fraction.length) := by
    rw [padRight, List.length_append, List.length_replicate]
  have single : ∀ char ∈ padRight 6 fraction, char.utf8Size = 1 := fun char isMember =>
    utf8Size_of_isHex (isHex_of_isDigit (List.all_eq_true.mp padded char isMember))
  have six : ((padRight 6 fraction).take 6).length = 6 := by
    rw [List.length_take, length]
    omega
  have sixDigits : ((padRight 6 fraction).take 6).all Char.isDigit = true := by
    rw [List.all_eq_true] at padded ⊢
    intro char isMember
    exact padded char (List.mem_of_mem_take isMember)
  have value : Nat.ofDigitChars 10 ((padRight 6 fraction).take 6) 0 =
      Nat.ofDigitChars 10 fraction 0 * 10 ^ 6 / 10 ^ fraction.length := by
    rw [ofDigitChars_take padded, length, padRight, Nat.ofDigitChars_append,
      Nat.ofDigitChars_replicate_zero]
    by_cases long : 6 ≤ fraction.length
    · obtain ⟨cut, isCut⟩ := Nat.exists_eq_add_of_le long
      rw [isCut, Nat.sub_eq_zero_of_le (Nat.le_add_right _ _), Nat.pow_add,
        Nat.mul_comm (Nat.ofDigitChars _ _ _) (10 ^ 6), Nat.mul_div_mul_left _ _ (by decide),
        Nat.pow_zero, Nat.one_mul, Nat.add_zero, Nat.add_sub_cancel_left]
    · obtain ⟨short, isShort⟩ := Nat.exists_eq_add_of_le (Nat.le_of_not_le long)
      have power : 10 ^ 6 = 10 ^ short * 10 ^ fraction.length := by
        rw [← Nat.pow_add, Nat.add_comm, ← isShort]
      have kept : fraction.length + short - 6 = 0 := by omega
      rw [Nat.sub_eq_of_eq_add' isShort, kept, Nat.pow_zero, Nat.div_one, power, ← Nat.mul_assoc,
        Nat.mul_div_cancel _ (Nat.pow_pos (by decide)), Nat.mul_comm]
  have nonempty : (padRight 6 fraction).take 6 ≠ [] := by
    intro isEmpty
    rw [isEmpty] at six
    cases six
  have read : parseDigits ((padRight 6 fraction).take 6) =
      some (Nat.ofDigitChars 10 fraction 0 * 10 ^ 6 / 10 ^ fraction.length) := by
    rw [parseDigits, if_pos ⟨nonempty, sixDigits⟩, value]
  have unsigned : ¬ Signed ((padRight 6 fraction).take 6) := by
    rw [eq_padNat_of_parseDigits read]
    exact not_signed_padNat _ _
  have below := lt_of_parseDigits_eq_some read
  rw [six] at below
  generalize Nat.ofDigitChars 10 fraction 0 * 10 ^ 6 / 10 ^ fraction.length = micros at read below ⊢
  rw [fractionMicros, takeBytes_of_single single (by omega), Option.bind_some,
    parseSigned_of_not_signed unsigned, read, Option.map_some, Option.filter_some,
    if_pos (decide_eq_true ⟨by omega, by omega⟩), Option.getD_some]

theorem fractionMicros_lt {fraction : Text} (digits : fraction.all Char.isDigit = true) :
    Nat.ofDigitChars 10 fraction 0 * 10 ^ 6 / 10 ^ fraction.length < 10 ^ 6 := by
  have below := (ofDigitChars_bounds digits 0).2
  rw [Nat.zero_add, Nat.one_mul] at below
  rw [Nat.div_lt_iff_lt_mul (Nat.pow_pos (by decide)), Nat.mul_comm (10 ^ 6)]
  exact Nat.mul_lt_mul_of_pos_right below (by decide)

theorem checked_of_fits {value : Int} (fits : -2 ^ 63 ≤ value ∧ value < 2 ^ 63) :
    checked value = .returns value := if_pos fits

/-- A time of day is added to a midnight without an overflow. -/
theorem momentOf_of_small {midnight hour minute second micros : Int}
    (inSpan : -2 ^ 62 < midnight ∧ midnight + microsPerDay < 2 ^ 62)
    (isHour : 0 ≤ hour ∧ hour < 24) (isMinute : 0 ≤ minute ∧ minute < 60)
    (isSecond : 0 ≤ second ∧ second < 60) (isMicros : 0 ≤ micros ∧ micros < 10 ^ 6) :
    momentOf midnight hour minute second micros =
      .returns (midnight + (hour * 3600 + minute * 60 + second) * 1000000 + micros) := by
  rw [Calendar.microsPerDay] at inSpan
  rw [momentOf, checked_of_fits ⟨by omega, by omega⟩, Attempt.returns_bind,
    checked_of_fits ⟨by omega, by omega⟩, Attempt.returns_bind,
    checked_of_fits ⟨by omega, by omega⟩, Attempt.returns_bind,
    checked_of_fits ⟨by omega, by omega⟩, Attempt.returns_bind,
    checked_of_fits ⟨by omega, by omega⟩, Attempt.returns_bind,
    checked_of_fits ⟨by omega, by omega⟩, Attempt.returns_bind,
    checked_of_fits ⟨by omega, by omega⟩]

namespace Instant

/-- An instant's stamp. -/
def stamp (instant : Instant) : Stamp where
  year := padNat 4 instant.year
  month := padNat 2 instant.month
  day := padNat 2 instant.day
  moreDate := []
  hour := padNat 2 instant.hour
  minute := padNat 2 instant.minute
  second := padNat 2 instant.second
  moreTime := []
  fraction := if instant.fraction = [] then none else some instant.fraction
  zones := 1

theorem not_mem_date {char : Char} (instant : Instant) (notDigit : char.isDigit = false)
    (other : char ≠ '-') : char ∉ instant.date := by
  simp [date, not_mem_padNat _ _ notDigit, other]

theorem not_mem_clock {char : Char} (instant : Instant) (notDigit : char.isDigit = false)
    (other : char ≠ ':') : char ∉ instant.clock := by
  simp [clock, not_mem_padNat _ _ notDigit, other]

theorem not_mem_fraction {char : Char} (instant : Instant) (notDigit : char.isDigit = false) :
    char ∉ instant.fraction := by
  intro isMember
  rw [List.all_eq_true.mp instant.digits char isMember] at notDigit
  cases notDigit

theorem splitOn_date (instant : Instant) : instant.date.splitOn '-' =
    [padNat 4 instant.year, padNat 2 instant.month, padNat 2 instant.day] := by
  rw [date, List.splitOn_append_cons_self_of_not_mem (not_mem_padNat _ _ (by decide)),
    List.splitOn_append_cons_self_of_not_mem (not_mem_padNat _ _ (by decide)),
    List.splitOn_eq_singleton (not_mem_padNat _ _ (by decide))]

theorem splitOn_clock (instant : Instant) : instant.clock.splitOn ':' =
    [padNat 2 instant.hour, padNat 2 instant.minute, padNat 2 instant.second] := by
  rw [clock, List.splitOn_append_cons_self_of_not_mem (not_mem_padNat _ _ (by decide)),
    List.splitOn_append_cons_self_of_not_mem (not_mem_padNat _ _ (by decide)),
    List.splitOn_eq_singleton (not_mem_padNat _ _ (by decide))]

/-- A time before its zone is cut at its point, where it has one. -/
theorem splitOnce_time (instant : Instant) :
    splitOnce '.' (instant.clock ++ pointed instant.fraction) =
      if instant.fraction = [] then none else some (instant.clock, instant.fraction) := by
  have absent : '.' ∉ instant.clock := instant.not_mem_clock (by decide) (by decide)
  cases isFraction : instant.fraction with
  | nil =>
      rw [if_pos rfl, pointed, List.append_nil]
      cases isSplit : splitOnce '.' instant.clock with
      | none => rfl
      | some parts =>
          have isPoint := (append_of_splitOnce_eq_some isSplit).1
          rw [isPoint] at absent
          simp at absent
  | cons digit digits =>
      rw [if_neg (List.cons_ne_nil _ _)]
      exact splitOnce_append_cons absent _

/-- **An instant's name is cut into its own stamp.** -/
theorem ofText_text (instant : Instant) : Stamp.ofText instant.text = some instant.stamp := by
  have time : 'Z' ∉ instant.clock ++ pointed instant.fraction := by
    rw [List.mem_append, not_or]
    refine ⟨instant.not_mem_clock (by decide) (by decide), ?_⟩
    cases isFraction : instant.fraction with
    | nil => exact List.not_mem_nil
    | cons digit digits =>
        refine List.not_mem_cons_of_ne_of_not_mem (by decide) ?_
        rw [← isFraction]
        exact instant.not_mem_fraction (by decide)
  have last : (instant.clock ++ pointed instant.fraction).getLast? ≠ some 'Z' := fun isLast =>
    time (List.mem_of_getLast? isLast)
  obtain ⟨trimmed, zones⟩ := trimEnd_concat last
  refine Stamp.ofText_eq_some_iff.mpr ⟨instant.date, _,
    splitOnce_append_cons (instant.not_mem_date (by decide) (by decide)) _, ?_⟩
  rw [trimmed, zones, splitOnce_time, splitOn_date]
  by_cases whole : instant.fraction = []
  · rw [if_pos whole, Option.map_none, Option.getD_none, whole, pointed, List.append_nil,
      splitOn_clock]
    exact ⟨rfl, rfl, if_pos whole, rfl⟩
  · rw [if_neg whole, Option.map_some, Option.getD_some, splitOn_clock]
    exact ⟨rfl, rfl, if_neg whole, rfl⟩

/-- An instant's stamp is read as its fields. -/
theorem reads (instant : Instant) : instant.stamp.Reads instant.year instant.month instant.day
    instant.hour instant.minute instant.second := by
  have fourDigits := instant.fourDigits
  have monthAtMost := instant.isDate.monthAtMost
  have dayAtMost := Nat.le_trans instant.isDate.dayAtMost (monthLength_le _ _)
  have isTime := instant.isTime
  have unpadded (width value : Nat) (fits : value < 2 ^ 63) :
      parseSigned 64 (padNat width value) = some (value : Int) := by
    change parseSigned 64 (padInt width value) = _
    exact parseSigned_padInt (by omega) (by omega)
  exact
    { isYear := unpadded 4 _ (by omega)
      isMonth := parseUnsigned_padNat (by omega)
      isDay := parseUnsigned_padNat (by omega)
      isDate := instant.isDate
      fourDigits := fourDigits
      isHour := unpadded 2 _ (by omega)
      isMinute := unpadded 2 _ (by omega)
      isSecond := unpadded 2 _ (by omega) }

/-- **An instant's name is read as that instant.** -/
theorem atMicros_text (instant : Instant) :
    (BestBidAsk.mk (some instant.text)).atMicros = .returns (some instant.micros) := by
  have isDate := instant.isDate
  have days := @Calendar.daysFromCivil_eq instant.year instant.month instant.day
    isDate.monthPositive isDate.monthAtMost
  have epoch : dayNumber 1970 1 1 = 719162 := by decide +kernel
  have midnight := (Calendar.bounds_of_midnightOf
    (midnightOf_padded_iff.mpr ⟨isDate, instant.fourDigits, rfl⟩)).2
  have isTime := instant.isTime
  have below := fractionMicros_lt instant.digits
  have fraction : instant.stamp.fraction.getD [] = instant.fraction := by
    rw [stamp]
    by_cases whole : instant.fraction = []
    · rw [if_pos whole, whole, Option.getD_none]
    · rw [if_neg whole, Option.getD_some]
  rw [atMicros_of_reads instant.ofText_text instant.reads, fraction,
    fractionMicros_of_digits instant.digits, momentOf_of_small midnight ⟨by omega, by omega⟩
    ⟨by omega, by omega⟩ ⟨by omega, by omega⟩ ⟨Int.natCast_nonneg _, by omega⟩,
    Attempt.returns_bind, micros, days, epoch]
  rfl

/-- Instants of one name are one in microseconds. -/
theorem micros_eq_of_text_eq {first second : Instant} (same : first.text = second.text) :
    first.micros = second.micros := by
  have isSecond := second.atMicros_text
  rw [← same, first.atMicros_text] at isSecond
  exact Option.some.inj (Attempt.returns.inj isSecond)

/-- An instant's stamp says nothing more. -/
theorem isPlain (instant : Instant) : instant.stamp.IsPlain := by
  have fourDigits := instant.fourDigits
  have monthAtMost := instant.isDate.monthAtMost
  have dayAtMost := Nat.le_trans instant.isDate.dayAtMost (monthLength_le _ _)
  have isTime := instant.isTime
  refine
    { yearWidth := (length_padNat_eq_iff (by decide)).mpr fourDigits
      widths := ?_
      unsigned := ?_
      nothingMore := ⟨rfl, rfl⟩
      fraction := ?_
      zone := rfl }
  · simp only [Stamp.narrow, stamp, List.forall_mem_cons]
    refine ⟨?_, ?_, ?_, ?_, ?_, List.forall_mem_nil _⟩ <;>
      exact (length_padNat_eq_iff (by decide)).mpr (by omega)
  · simp only [Stamp.narrow, stamp, List.forall_mem_cons]
    exact ⟨not_signed_padNat _ _, not_signed_padNat _ _, not_signed_padNat _ _,
      not_signed_padNat _ _, not_signed_padNat _ _, not_signed_padNat _ _, List.forall_mem_nil _⟩
  · intro digits isFraction
    simp only [stamp] at isFraction
    split at isFraction
    · cases isFraction
    · rename_i some
      cases isFraction
      exact ⟨some, instant.digits⟩

end Instant

theorem eq_of_splitOn {separator : Char} {text first second third : Text}
    (isSplit : text.splitOn separator = [first, second, third]) :
    text = first ++ separator :: (second ++ separator :: third) := by
  have joined : [separator].intercalate (text.splitOn separator) = text :=
    List.intercalate_splitOn separator
  rw [isSplit] at joined
  rw [← joined]
  simp [List.intercalate]

/-- An unsigned field of its width is its number, padded. -/
theorem exists_eq_padNat {text : Text} {value : Int} {width : Nat} (unsigned : ¬ Signed text)
    (isWidth : text.length = width) (parsed : parseSigned 64 text = some value) :
    ∃ natural : Nat, value = natural ∧ text = padNat width natural := by
  obtain ⟨atLeast, padded⟩ := Calendar.eq_padInt_of_parseSigned unsigned parsed
  obtain ⟨natural, rfl⟩ := Int.eq_ofNat_of_zero_le atLeast
  rw [isWidth] at padded
  exact ⟨natural, rfl, padded⟩

/-- **A plain stamp of a time of day is an instant's name.** -/
theorem exists_instant {text : Text} {stamp : Stamp} {year month day : Nat}
    {hour minute second : Int} (cut : Stamp.ofText text = some stamp)
    (reads : stamp.Reads year month day hour minute second) (plain : stamp.IsPlain)
    (isTime : hour < 24 ∧ minute < 60 ∧ second < 60) :
    ∃ instant : Instant, instant.text = text := by
  obtain ⟨date, rest, isSplit, isDate, isClock, isFraction, isZone⟩ :=
    Stamp.ofText_eq_some_iff.mp cut
  have widths := plain.widths
  have unsigned := plain.unsigned
  simp only [Stamp.narrow, List.forall_mem_cons] at widths unsigned
  obtain ⟨monthWidth, dayWidth, hourWidth, minuteWidth, secondWidth, _⟩ := widths
  obtain ⟨yearPlain, monthPlain, dayPlain, hourPlain, minutePlain, secondPlain, _⟩ := unsigned
  obtain ⟨_, sameYear, yearText⟩ := exists_eq_padNat yearPlain plain.yearWidth reads.isYear
  obtain rfl := Int.ofNat.inj sameYear
  have monthText := Calendar.eq_padNat_of_parseUnsigned monthPlain reads.isMonth
  have dayText := Calendar.eq_padNat_of_parseUnsigned dayPlain reads.isDay
  rw [monthWidth] at monthText
  rw [dayWidth] at dayText
  obtain ⟨hours, rfl, hourText⟩ := exists_eq_padNat hourPlain hourWidth reads.isHour
  obtain ⟨minutes, rfl, minuteText⟩ := exists_eq_padNat minutePlain minuteWidth reads.isMinute
  obtain ⟨seconds, rfl, secondText⟩ := exists_eq_padNat secondPlain secondWidth reads.isSecond
  rw [plain.nothingMore.1, yearText, monthText, dayText] at isDate
  rw [plain.nothingMore.2, hourText, minuteText, secondText] at isClock
  have dateText := eq_of_splitOn isDate
  have clockText := eq_of_splitOn isClock
  have restText := eq_trimEnd_append 'Z' rest
  rw [← isZone, plain.zone] at restText
  have digits : (stamp.fraction.getD []).all Char.isDigit = true := by
    cases whole : stamp.fraction with
    | none => rfl
    | some digits => exact (plain.fraction digits whole).2
  refine ⟨⟨year, month, day, hours, minutes, seconds, stamp.fraction.getD [], reads.isDate,
    reads.fourDigits, ⟨by omega, by omega, by omega⟩, digits⟩, ?_⟩
  have timeText : trimEnd 'Z' rest = padNat 2 hours ++ ':' :: (padNat 2 minutes ++
      ':' :: padNat 2 seconds) ++ pointed (stamp.fraction.getD []) := by
    rw [← clockText]
    cases isPoint : splitOnce '.' (trimEnd 'Z' rest) with
    | none =>
        rw [isPoint] at isFraction
        rw [isFraction, Option.map_none, Option.map_none, Option.getD_none, Option.getD_none,
          pointed, List.append_nil]
    | some parts =>
        rw [isPoint, Option.map_some] at isFraction
        rw [isFraction, Option.map_some, Option.getD_some, Option.getD_some]
        have nonempty := (plain.fraction _ isFraction).1
        have pointText : pointed parts.2 = '.' :: parts.2 := by
          cases isParts : parts.2 with
          | nil => exact absurd isParts nonempty
          | cons digit digits => rfl
        rw [pointText]
        exact (append_of_splitOnce_eq_some isPoint).1
  rw [(append_of_splitOnce_eq_some isSplit).1, restText, timeText, dateText]
  rfl

/-- **A timestamp is read exactly where it is no stamp that can be read, or a plain one of a time
of day.** -/
theorem timestamp_read_exactly_iff (text : Text) : ReadExactly text ↔ Unambiguous text := by
  constructor
  · intro exact stamp year month day hour minute second cut reads
    rw [ReadExactly, atMicros_of_reads cut reads] at exact
    cases isMoment : momentOf (daysFromCivil year month day * microsPerDay) hour minute second
        (fractionMicros (stamp.fraction.getD [])) with
    | panics =>
        rw [isMoment, Attempt.panics_bind, Attempt.satisfies_panics] at exact
        exact exact.elim
    | returns moment =>
        rw [isMoment, Attempt.returns_bind, Attempt.satisfies_returns] at exact
        obtain ⟨instant, rfl, _⟩ := (exact moment).mp rfl
        rw [instant.ofText_text] at cut
        obtain rfl := Option.some.inj cut
        have isTime := instant.isTime
        have own := instant.reads
        obtain rfl := Option.some.inj (reads.isHour.symm.trans own.isHour)
        obtain rfl := Option.some.inj (reads.isMinute.symm.trans own.isMinute)
        obtain rfl := Option.some.inj (reads.isSecond.symm.trans own.isSecond)
        exact ⟨instant.isPlain, by omega, by omega, by omega⟩
  · intro unambiguous
    by_cases isRead : ∃ stamp year month day hour minute second, Stamp.ofText text = some stamp ∧
        stamp.Reads year month day hour minute second
    · obtain ⟨stamp, year, month, day, hour, minute, second, cut, reads⟩ := isRead
      obtain ⟨plain, isTime⟩ := unambiguous stamp year month day hour minute second cut reads
      obtain ⟨instant, rfl⟩ := exists_instant cut reads plain isTime
      rw [ReadExactly, instant.atMicros_text, Attempt.satisfies_returns]
      intro micros
      constructor
      · intro isMicros
        exact ⟨instant, rfl, Option.some.inj isMicros⟩
      · rintro ⟨other, same, rfl⟩
        rw [Instant.micros_eq_of_text_eq same]
    · rw [ReadExactly, atMicros_of_unread fun stamp year month day hour minute second cut reads =>
        isRead ⟨stamp, year, month, day, hour, minute, second, cut, reads⟩,
        Attempt.satisfies_returns]
      intro micros
      refine iff_of_false (by simp) ?_
      rintro ⟨instant, rfl, _⟩
      exact isRead ⟨instant.stamp, _, _, _, _, _, _, instant.ofText_text, instant.reads⟩

/-- What is read at all, where texts are read exactly, is cut into an instant's stamp. -/
theorem ReadExactly.exists_stamp {text : Text} {micros : Int} (exact : ReadExactly text)
    (read : (BestBidAsk.mk (some text)).atMicros = .returns (some micros)) :
    ∃ instant : Instant, Stamp.ofText text = some instant.stamp := by
  rw [ReadExactly, read, Attempt.satisfies_returns] at exact
  obtain ⟨instant, rfl, _⟩ := (exact micros).mp rfl
  exact ⟨instant, instant.ofText_text⟩

/-- **Texts that are no instants are read as some.**  An offset after a fraction's sixth digit is
cut off, a zone may be missing and an hour be any integer, one too many of which overflows. -/
theorem timestamps_not_exact :
    ¬ ReadExactly "2026-09-21T10:15:30.123456+05:00".toList ∧
      ¬ ReadExactly "2026-09-21T10:15:30".toList ∧
      ¬ ReadExactly "2026-09-21T25:15:30Z".toList ∧
      (BestBidAsk.mk (some "2026-09-21T9223372036854775807:15:30Z".toList)).atMicros =
        .panics := by
  have unzoned {text : Text} {micros : Int}
      (read : (BestBidAsk.mk (some text)).atMicros = .returns (some micros))
      (zones : (Stamp.ofText text).map Stamp.zones = some 0) : ¬ ReadExactly text := by
    intro exact
    obtain ⟨instant, cut⟩ := exact.exists_stamp read
    rw [cut] at zones
    cases zones
  refine ⟨?_, ?_, ?_, by decide +kernel⟩
  · exact @unzoned _ 1789985730123456 (by decide +kernel) (by decide +kernel)
  · exact @unzoned _ 1789985730000000 (by decide +kernel) (by decide +kernel)
  · intro exact
    have read : (BestBidAsk.mk (some "2026-09-21T25:15:30Z".toList)).atMicros =
        .returns (some 1790039730000000) := by decide +kernel
    obtain ⟨instant, cut⟩ := exact.exists_stamp read
    have hour : (Stamp.ofText "2026-09-21T25:15:30Z".toList).map Stamp.hour = some ['2', '5'] := by
      decide +kernel
    rw [cut] at hour
    have isHour : padNat 2 instant.hour = ['2', '5'] := Option.some.inj hour
    have value := parseDigits_padNat 2 instant.hour
    rw [isHour] at value
    have twentyFive : parseDigits ['2', '5'] = some 25 := by decide +kernel
    rw [twentyFive] at value
    have isTime := instant.isTime
    have same := Option.some.inj value
    omega

end Crypto
end Datawatch
