import Datawatch.Library.Text
import Mathlib.Tactic.Ring

/-!
# Digits of a fixed width

A digit text of a given length is told by its value, and two of one length are
ordered as their values are.
-/

namespace Library
namespace Text

/-- A digit is worth at most nine. -/
theorem digit_le {char : Char} (digit : char.isDigit) :
    '0'.toNat ≤ char.toNat ∧ char.toNat ≤ '0'.toNat + 9 := by
  simp only [Char.isDigit, Bool.and_eq_true, decide_eq_true_eq] at digit
  exact ⟨digit.1, digit.2⟩

/-- Reading one more digit shifts what was read before it. -/
theorem ofDigitChars_bounds {text : Text} (digits : text.all Char.isDigit) (initial : Nat) :
    initial * 10 ^ text.length ≤ Nat.ofDigitChars 10 text initial ∧
      Nat.ofDigitChars 10 text initial < (initial + 1) * 10 ^ text.length := by
  induction text generalizing initial with
  | nil => simp [Nat.ofDigitChars]
  | cons char text inductionHypothesis =>
      simp only [List.all_cons, Bool.and_eq_true] at digits
      have worth := digit_le digits.1
      have rest := inductionHypothesis digits.2 (10 * initial + (char.toNat - '0'.toNat))
      rw [Nat.ofDigitChars_cons, List.length_cons, Nat.pow_succ]
      refine ⟨Nat.le_trans ?_ rest.1, Nat.lt_of_lt_of_le rest.2 ?_⟩
      · calc initial * (10 ^ text.length * 10) = 10 * initial * 10 ^ text.length := by ring
          _ ≤ _ := Nat.mul_le_mul_right _ (Nat.le_add_right _ _)
      · calc (10 * initial + (char.toNat - '0'.toNat) + 1) * 10 ^ text.length
            ≤ (10 * (initial + 1)) * 10 ^ text.length := Nat.mul_le_mul_right _ (by omega)
          _ = (initial + 1) * (10 ^ text.length * 10) := by ring

/-- What was read before decides between values of equally many digits. -/
theorem ofDigitChars_lt_of_lt {first second : Text} (firstDigits : first.all Char.isDigit)
    (secondDigits : second.all Char.isDigit) (length : first.length = second.length)
    {smaller larger : Nat} (less : smaller < larger) :
    Nat.ofDigitChars 10 first smaller < Nat.ofDigitChars 10 second larger := by
  calc Nat.ofDigitChars 10 first smaller
      < (smaller + 1) * 10 ^ first.length := (ofDigitChars_bounds firstDigits smaller).2
    _ ≤ larger * 10 ^ second.length := by
        rw [length]
        exact Nat.mul_le_mul_right _ less
    _ ≤ _ := (ofDigitChars_bounds secondDigits larger).1

theorem char_lt_iff {first second : Char} : first < second ↔ first.toNat < second.toNat :=
  Iff.rfl

/-- **Equally long digit texts are ordered as their values are.** -/
theorem ofDigitChars_lt_iff {first second : Text} (firstDigits : first.all Char.isDigit)
    (secondDigits : second.all Char.isDigit) (length : first.length = second.length)
    (initial : Nat) :
    Nat.ofDigitChars 10 first initial < Nat.ofDigitChars 10 second initial ↔ first < second := by
  induction first generalizing second initial with
  | nil =>
      cases second with
      | nil => simp
      | cons char second => simp at length
  | cons firstChar first inductionHypothesis =>
      cases second with
      | nil => simp at length
      | cons secondChar second =>
          simp only [List.all_cons, Bool.and_eq_true] at firstDigits secondDigits
          have sameLength : first.length = second.length := by simpa using length
          have firstWorth := digit_le firstDigits.1
          have secondWorth := digit_le secondDigits.1
          rw [Nat.ofDigitChars_cons, Nat.ofDigitChars_cons, List.cons_lt_cons_iff]
          rcases Nat.lt_trichotomy firstChar.toNat secondChar.toNat with less | same | greater
          · have value := ofDigitChars_lt_of_lt firstDigits.2 secondDigits.2 sameLength
              (show 10 * initial + (firstChar.toNat - '0'.toNat) <
                10 * initial + (secondChar.toNat - '0'.toNat) by omega)
            exact iff_of_true value (Or.inl (char_lt_iff.mpr less))
          · have sameChar : firstChar = secondChar := Char.toNat_inj.mp same
            subst sameChar
            rw [inductionHypothesis firstDigits.2 secondDigits.2 sameLength]
            simp
          · have value := ofDigitChars_lt_of_lt secondDigits.2 firstDigits.2 sameLength.symm
              (show 10 * initial + (secondChar.toNat - '0'.toNat) <
                10 * initial + (firstChar.toNat - '0'.toNat) by omega)
            refine iff_of_false (Nat.lt_asymm value) ?_
            rintro (less | ⟨rfl, _⟩)
            · exact Nat.lt_asymm greater (char_lt_iff.mp less)
            · exact Nat.lt_irrefl _ greater

/-- Equally long digit texts of one value are one text. -/
theorem eq_of_ofDigitChars_eq {first second : Text} (firstDigits : first.all Char.isDigit)
    (secondDigits : second.all Char.isDigit) (length : first.length = second.length)
    (same : Nat.ofDigitChars 10 first 0 = Nat.ofDigitChars 10 second 0) : first = second := by
  rcases lt_trichotomy first second with less | equal | greater
  · have value := (ofDigitChars_lt_iff firstDigits secondDigits length 0).mpr less
    omega
  · exact equal
  · have value := (ofDigitChars_lt_iff secondDigits firstDigits length.symm 0).mpr greater
    omega

/-- A padded number is digits only. -/
theorem all_isDigit_padNat (width value : Nat) : (padNat width value).all Char.isDigit :=
  List.all_eq_true.mpr fun _ member => isDigit_of_mem_padNat member

theorem ofDigitChars_padNat (width value : Nat) :
    Nat.ofDigitChars 10 (padNat width value) 0 = value := by
  have read := parseDigits_padNat width value
  unfold parseDigits at read
  split at read
  · exact Option.some.inj read
  · cases read

/-- Numbers padded alike are one number. -/
theorem padNat_inj {width first second : Nat} :
    padNat width first = padNat width second ↔ first = second := by
  refine ⟨fun same => ?_, congrArg _⟩
  rw [← ofDigitChars_padNat width first, same, ofDigitChars_padNat]

/-- **A digit text is its value, padded to its length.** -/
theorem eq_padNat_of_parseDigits {text : Text} {value : Nat}
    (parsed : parseDigits text = some value) : text = padNat text.length value := by
  have below := lt_of_parseDigits_eq_some parsed
  unfold parseDigits at parsed
  split at parsed
  · rename_i digits
    have positive : 0 < text.length := List.length_pos_iff.mpr digits.1
    have length : text.length = (padNat text.length value).length :=
      ((length_padNat_eq_iff positive).mpr below).symm
    refine eq_of_ofDigitChars_eq digits.2 (all_isDigit_padNat _ _) length ?_
    rw [ofDigitChars_padNat]
    exact Option.some.inj parsed
  · cases parsed

/-- Numbers padded to one width are ordered as they are. -/
theorem padNat_lt_iff {width first second : Nat} (positive : 0 < width)
    (firstFits : first < 10 ^ width) (secondFits : second < 10 ^ width) :
    padNat width first < padNat width second ↔ first < second := by
  have length : (padNat width first).length = (padNat width second).length := by
    rw [(length_padNat_eq_iff positive).mpr firstFits,
      (length_padNat_eq_iff positive).mpr secondFits]
  rw [← ofDigitChars_lt_iff (all_isDigit_padNat _ _) (all_isDigit_padNat _ _) length 0,
    ofDigitChars_padNat, ofDigitChars_padNat]

/-- Texts that open alike in length are ordered by their openings first. -/
theorem append_lt_append_iff {first second : Text} (length : first.length = second.length)
    (firstRest secondRest : Text) :
    first ++ firstRest < second ++ secondRest ↔
      first < second ∨ first = second ∧ firstRest < secondRest := by
  induction first generalizing second with
  | nil =>
      cases second with
      | nil => simp
      | cons char second => simp at length
  | cons firstChar first inductionHypothesis =>
      cases second with
      | nil => simp at length
      | cons secondChar second =>
          rw [List.cons_append, List.cons_append, List.cons_lt_cons_iff, List.cons_lt_cons_iff,
            inductionHypothesis (by simpa using length), List.cons.injEq]
          tauto

/-- A sign stands before a field's digits. -/
def Signed (text : Text) : Prop := text.head? = some '+' ∨ text.head? = some '-'

instance (text : Text) : Decidable (Signed text) := inferInstanceAs (Decidable (_ ∨ _))

/-- A number without a sign is read by its digits. -/
theorem parseUnsigned_of_not_signed {bits : Nat} {text : Text} (unsigned : ¬ Signed text) :
    parseUnsigned bits text = (parseDigits text).filter fun value => value < 2 ^ bits := by
  cases text with
  | nil => rfl
  | cons char text =>
      simp only [Signed, List.head?_cons, Option.some.injEq, not_or] at unsigned
      simp [parseUnsigned, unsigned.1]

theorem parseSigned_of_not_signed {bits : Nat} {text : Text} (unsigned : ¬ Signed text) :
    parseSigned bits text = ((parseDigits text).map fun value : Nat => (value : Int)).filter
      fun value => -2 ^ (bits - 1) ≤ value ∧ value < 2 ^ (bits - 1) := by
  cases text with
  | nil => rfl
  | cons char text =>
      simp only [Signed, List.head?_cons, Option.some.injEq, not_or] at unsigned
      simp [parseSigned, unsigned.1, unsigned.2]

/-- A padded number carries no sign. -/
theorem not_signed_padNat (width value : Nat) : ¬ Signed (padNat width value) := by
  obtain ⟨char, rest, equal, digit⟩ := exists_padNat_eq_cons width value
  rw [equal]
  rintro (plus | minus)
  · rw [Option.some.inj plus] at digit
    exact absurd digit (by decide)
  · rw [Option.some.inj minus] at digit
    exact absurd digit (by decide)

end Text
end Library
