import Mathlib.Algebra.Order.BigOperators.Group.List
import Mathlib.Algebra.Order.Group.Multiset
import Mathlib.Algebra.Order.Ring.Int
import Mathlib.Algebra.Order.Ring.Nat
import Mathlib.Data.Char
import Mathlib.Data.Int.ConditionallyCompleteOrder
import Mathlib.Data.List.AList
import Mathlib.Data.List.Lex
import Mathlib.Data.List.Sort
import Mathlib.Data.Prod.Lex

/-!
# Decimal text

Text as a list of characters, integers written in decimal, and the parsers that
read them back at a fixed width.
-/

namespace Library

/-- Text, one character at a time. -/
abbrev Text := List Char

instance : LawfulBEq Text := inferInstance

namespace Text

/-- What follows the first occurrence of a separator, and what precedes it. -/
def splitOnce (separator : Char) : Text → Option (Text × Text)
  | [] => none
  | char :: rest =>
      if char = separator then some ([], rest)
      else (splitOnce separator rest).map fun parts => (char :: parts.1, parts.2)

/-- The text before a suffix, or `none` where it does not end in it. -/
def stripSuffix (suffix text : Text) : Option Text :=
  if suffix <:+ text then some (text.take (text.length - suffix.length)) else none

theorem splitOnce_append_cons
    {separator : Char} {front : Text} (absent : separator ∉ front) (back : Text) :
    splitOnce separator (front ++ separator :: back) = some (front, back) := by
  induction front with
  | nil => simp [splitOnce]
  | cons char front inductionHypothesis =>
      simp only [List.mem_cons, not_or] at absent
      simp [splitOnce, Ne.symm absent.1, inductionHypothesis absent.2]

@[simp] theorem stripSuffix_append (front suffix : Text) :
    stripSuffix suffix (front ++ suffix) = some front := by
  simp [stripSuffix]

/-- A stripped suffix was there. -/
theorem append_of_stripSuffix_eq_some
    {suffix text front : Text} (stripped : stripSuffix suffix text = some front) :
    text = front ++ suffix := by
  unfold stripSuffix at stripped
  split at stripped
  · rename_i isSuffix
    obtain ⟨before, rfl⟩ := isSuffix
    simpa using stripped
  · contradiction

/-- A natural number in decimal. -/
def renderNat (value : Nat) : Text := Nat.toDigits 10 value

/-- An integer in decimal, its sign first. -/
def renderInt : Int → Text
  | .ofNat value => renderNat value
  | .negSucc value => '-' :: renderNat (value + 1)

/-- One or more decimal digits, and nothing else. -/
def parseDigits (text : Text) : Option Nat :=
  if text ≠ [] ∧ text.all Char.isDigit then some (Nat.ofDigitChars 10 text 0) else none

/-- An unsigned integer of a width: a plus sign may stand before its digits. -/
def parseUnsigned (bits : Nat) (text : Text) : Option Nat :=
  let digits := match text with
    | '+' :: rest => rest
    | other => other
  (parseDigits digits).filter fun value => value < 2 ^ bits

/-- A signed integer of a width: either sign may stand before its digits. -/
def parseSigned (bits : Nat) (text : Text) : Option Int :=
  let value : Option Int := match text with
    | '-' :: rest => (parseDigits rest).map fun value : Nat => -(value : Int)
    | '+' :: rest => (parseDigits rest).map fun value : Nat => (value : Int)
    | other => (parseDigits other).map fun value : Nat => (value : Int)
  value.filter fun value => -2 ^ (bits - 1) ≤ value ∧ value < 2 ^ (bits - 1)

/-- Decimal digits are digits. -/
theorem isDigit_of_mem_renderNat {value : Nat} {char : Char}
    (member : char ∈ renderNat value) : char.isDigit :=
  Nat.isDigit_of_mem_toDigits (by decide) (by decide) member

/-- The first character of a rendered natural number is a digit. -/
theorem exists_renderNat_eq_cons (value : Nat) :
    ∃ char rest, renderNat value = char :: rest ∧ char.isDigit := by
  obtain ⟨char, rest, equal⟩ := List.exists_cons_of_ne_nil (Nat.toDigits_ne_nil (n := value) (b := 10))
  exact ⟨char, rest, equal, isDigit_of_mem_renderNat (by rw [renderNat, equal]; exact List.mem_cons_self)⟩

@[simp] theorem parseDigits_renderNat (value : Nat) :
    parseDigits (renderNat value) = some value := by
  have nonempty : renderNat value ≠ [] := Nat.toDigits_ne_nil
  have digits : (renderNat value).all Char.isDigit :=
    List.all_eq_true.mpr fun _ member => isDigit_of_mem_renderNat member
  rw [parseDigits, if_pos ⟨nonempty, digits⟩]
  exact congrArg some Nat.ofDigitChars_ten_toDigits

/-- An unsigned integer within its width reads back. -/
theorem parseUnsigned_renderNat {bits value : Nat} (fits : value < 2 ^ bits) :
    parseUnsigned bits (renderNat value) = some value := by
  obtain ⟨char, rest, equal, digit⟩ := exists_renderNat_eq_cons value
  have notPlus : char ≠ '+' := by
    rintro rfl
    exact absurd digit (by decide)
  have parsed := parseDigits_renderNat value
  rw [equal] at parsed
  simp [parseUnsigned, equal, notPlus, parsed, fits]

/-- A signed integer within its width reads back. -/
theorem parseSigned_renderInt {bits : Nat} {value : Int}
    (atLeast : -2 ^ (bits - 1) ≤ value) (below : value < 2 ^ (bits - 1)) :
    parseSigned bits (renderInt value) = some value := by
  cases value with
  | ofNat natural =>
      obtain ⟨char, rest, equal, digit⟩ := exists_renderNat_eq_cons natural
      have notPlus : char ≠ '+' := by
        rintro rfl
        exact absurd digit (by decide)
      have notMinus : char ≠ '-' := by
        rintro rfl
        exact absurd digit (by decide)
      have parsed := parseDigits_renderNat natural
      rw [equal] at parsed
      simp only [Int.ofNat_eq_natCast] at atLeast below
      simp [parseSigned, renderInt, equal, notPlus, notMinus, parsed, atLeast, below]
  | negSucc natural =>
      refine Option.filter_eq_some_iff.mpr ⟨?_, by simp [atLeast, below]⟩
      simp only [renderInt, parseDigits_renderNat]
      rfl

/-- A read unsigned integer is within its width. -/
theorem lt_of_parseUnsigned_eq_some {bits value : Nat} {text : Text}
    (parsed : parseUnsigned bits text = some value) : value < 2 ^ bits := by
  obtain ⟨_, fits⟩ := Option.filter_eq_some_iff.mp parsed
  simpa using fits

/-- A read signed integer is within its width. -/
theorem bounds_of_parseSigned_eq_some {bits : Nat} {value : Int} {text : Text}
    (parsed : parseSigned bits text = some value) :
    -2 ^ (bits - 1) ≤ value ∧ value < 2 ^ (bits - 1) := by
  obtain ⟨_, fits⟩ := Option.filter_eq_some_iff.mp parsed
  simpa using fits

/-- A separator that is not a sign or a digit does not occur in an integer. -/
theorem not_mem_renderInt {separator : Char} (value : Int)
    (notDigit : separator.isDigit = false) (notMinus : separator ≠ '-') :
    separator ∉ renderInt value := by
  have notInDigits (natural : Nat) : separator ∉ renderNat natural := fun member => by
    simp [isDigit_of_mem_renderNat member] at notDigit
  cases value with
  | ofNat natural => exact notInDigits natural
  | negSucc natural => simp [renderInt, notMinus, notInDigits]

theorem not_mem_renderNat {separator : Char} (value : Nat)
    (notDigit : separator.isDigit = false) : separator ∉ renderNat value := fun member => by
  simp [isDigit_of_mem_renderNat member] at notDigit

/-- A natural number in at least `width` digits. -/
def padNat (width value : Nat) : Text :=
  List.replicate (width - (Text.renderNat value).length) '0' ++ Text.renderNat value

/-- An integer in at least `width` characters, its sign counted. -/
def padInt (width : Nat) : Int → Text
  | .ofNat value => padNat width value
  | .negSucc value => '-' :: padNat (width - 1) (value + 1)

theorem isDigit_of_mem_padNat {width value : Nat} {char : Char}
    (member : char ∈ padNat width value) : char.isDigit := by
  rcases List.mem_append.mp member with zero | digit
  · rw [List.eq_of_mem_replicate zero]
    decide
  · exact isDigit_of_mem_renderNat digit

theorem not_mem_padNat {separator : Char} (width value : Nat)
    (notDigit : separator.isDigit = false) : separator ∉ padNat width value := fun member => by
  simp [isDigit_of_mem_padNat member] at notDigit

theorem not_mem_padInt {separator : Char} (width : Nat) (value : Int)
    (notDigit : separator.isDigit = false) (notMinus : separator ≠ '-') :
    separator ∉ padInt width value := by
  cases value with
  | ofNat natural => exact not_mem_padNat width natural notDigit
  | negSucc natural => simp [padInt, notMinus, not_mem_padNat _ _ notDigit]

/-- Leading zeros change no number. -/
theorem parseDigits_padNat (width value : Nat) :
    parseDigits (padNat width value) = some value := by
  have nonempty : padNat width value ≠ [] :=
    List.append_ne_nil_of_right_ne_nil _ Nat.toDigits_ne_nil
  have digits : (padNat width value).all Char.isDigit :=
    List.all_eq_true.mpr fun char member => isDigit_of_mem_padNat member
  rw [parseDigits, if_pos ⟨nonempty, digits⟩, padNat, Nat.ofDigitChars_append,
    Nat.ofDigitChars_replicate_zero, Nat.mul_zero]
  exact congrArg some Nat.ofDigitChars_ten_toDigits

/-- The first character of a padded number is a digit. -/
theorem exists_padNat_eq_cons (width value : Nat) :
    ∃ char rest, padNat width value = char :: rest ∧ char.isDigit := by
  unfold padNat
  rcases padding : width - (renderNat value).length with _ | count
  · simpa using exists_renderNat_eq_cons value
  · exact ⟨'0', _, rfl, by decide⟩

theorem parseUnsigned_padNat {bits width value : Nat} (fits : value < 2 ^ bits) :
    parseUnsigned bits (padNat width value) = some value := by
  obtain ⟨char, rest, equal, digit⟩ := exists_padNat_eq_cons width value
  have notPlus : char ≠ '+' := by
    rintro rfl
    exact absurd digit (by decide)
  have parsed := parseDigits_padNat width value
  rw [equal] at parsed
  simp [parseUnsigned, equal, notPlus, parsed, fits]

theorem parseSigned_padInt {bits width : Nat} {value : Int} (atLeast : -2 ^ (bits - 1) ≤ value)
    (below : value < 2 ^ (bits - 1)) :
    parseSigned bits (padInt width value) = some value := by
  cases value with
  | ofNat natural =>
      obtain ⟨char, rest, equal, digit⟩ := exists_padNat_eq_cons width natural
      have notPlus : char ≠ '+' := by
        rintro rfl
        exact absurd digit (by decide)
      have notMinus : char ≠ '-' := by
        rintro rfl
        exact absurd digit (by decide)
      have parsed := parseDigits_padNat width natural
      rw [equal] at parsed
      simp only [Int.ofNat_eq_natCast] at atLeast below
      simp [parseSigned, padInt, equal, notPlus, notMinus, parsed, atLeast, below]
  | negSucc natural =>
      refine Option.filter_eq_some_iff.mpr ⟨?_, by simp [atLeast, below]⟩
      simp only [padInt, parseDigits_padNat]
      rfl

/-- A number takes its width in characters exactly when its digits fit. -/
theorem length_padNat_eq_iff {width value : Nat} (positive : 0 < width) :
    (padNat width value).length = width ↔ value < 10 ^ width := by
  have short := Nat.length_toDigits_le_iff (b := 10) (n := value) (by decide) positive
  rw [← short]
  simp only [padNat, renderNat, List.length_append, List.length_replicate]
  omega

/-- Digits name a number of no more digits. -/
theorem ofDigitChars_lt {text : Text} (digits : text.all Char.isDigit) {initial bound : Nat}
    (small : initial < 10 ^ bound) :
    Nat.ofDigitChars 10 text initial < 10 ^ (bound + text.length) := by
  induction text generalizing initial bound with
  | nil => simpa [Nat.ofDigitChars] using small
  | cons char text inductionHypothesis =>
      simp only [List.all_cons, Bool.and_eq_true] at digits
      rw [Nat.ofDigitChars_cons, List.length_cons, Nat.add_comm text.length, ← Nat.add_assoc]
      refine inductionHypothesis digits.2 ?_
      have digit : char.toNat - '0'.toNat ≤ 9 := by
        have isDigit := digits.1
        simp only [Char.isDigit, Bool.and_eq_true, decide_eq_true_eq] at isDigit
        have upper : char.toNat ≤ 57 := isDigit.2
        have zero : '0'.toNat = 48 := rfl
        omega
      rw [Nat.pow_succ]
      omega

theorem lt_of_parseDigits_eq_some {text : Text} {value : Nat}
    (parsed : parseDigits text = some value) : value < 10 ^ text.length := by
  unfold parseDigits at parsed
  split at parsed
  · rename_i digits
    have bounded : Nat.ofDigitChars 10 text 0 < 10 ^ (0 + text.length) :=
      ofDigitChars_lt digits.2 (by decide)
    rw [Nat.zero_add] at bounded
    exact Option.some.inj parsed ▸ bounded
  · cases parsed

/-- A signed integer of four characters is of at most four digits, its sign among them. -/
theorem bounds_of_parseSigned_four {bits : Nat} {text : Text} {value : Int}
    (four : text.length = 4) (parsed : parseSigned bits text = some value) :
    -1000 < value ∧ value < 10000 := by
  obtain ⟨read, _⟩ := Option.filter_eq_some_iff.mp parsed
  split at read
  · rename_i rest
    obtain ⟨natural, digits, rfl⟩ := Option.map_eq_some_iff.mp read
    have bounded := lt_of_parseDigits_eq_some digits
    obtain three : rest.length = 3 := by simpa using four
    rw [three] at bounded
    omega
  · rename_i rest
    obtain ⟨natural, digits, rfl⟩ := Option.map_eq_some_iff.mp read
    have bounded := lt_of_parseDigits_eq_some digits
    obtain three : rest.length = 3 := by simpa using four
    rw [three] at bounded
    omega
  · obtain ⟨natural, digits, rfl⟩ := Option.map_eq_some_iff.mp read
    have bounded := lt_of_parseDigits_eq_some digits
    rw [four] at bounded
    omega

end Text
end Library
