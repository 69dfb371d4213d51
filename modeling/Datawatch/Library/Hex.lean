import Mathlib.Data.List.TakeWhile
import Datawatch.Library.Text

/-!
# Hexadecimal text

Hex digits and their value, the parser of a radix that takes a sign, and text cut by the bytes
it is encoded in, which fails inside a character.
-/

namespace Library

namespace Text

/-- What a hex digit is worth, in either case. -/
def hexDigit (char : Char) : Option Nat :=
  if '0' ≤ char ∧ char ≤ '9' then some (char.toNat - '0'.toNat)
  else if 'a' ≤ char ∧ char ≤ 'f' then some (char.toNat - 'a'.toNat + 10)
  else if 'A' ≤ char ∧ char ≤ 'F' then some (char.toNat - 'A'.toNat + 10)
  else none

def isHex (char : Char) : Bool := (hexDigit char).isSome

/-- The value of hex digits read after others. -/
def hexValueFrom (initial : Nat) (digits : Text) : Nat :=
  digits.foldl (fun value digit => value * 16 + (hexDigit digit).getD 0) initial

/-- The value of hex digits. -/
def hexValue (digits : Text) : Nat := hexValueFrom 0 digits

/-- Hex digits, and at least one. -/
def IsHex (text : Text) : Prop := text ≠ [] ∧ text.all isHex = true

instance (text : Text) : Decidable (IsHex text) := inferInstanceAs (Decidable (_ ∧ _))

/-- Text without the plus sign it opens with. -/
def stripPlus : Text → Text
  | '+' :: rest => rest
  | other => other

/-- An unsigned integer of a width in radix sixteen: a plus sign may stand before its digits. -/
def parseHex (bits : Nat) (text : Text) : Option Nat :=
  if IsHex (stripPlus text) ∧ hexValue (stripPlus text) < 2 ^ bits then
    some (hexValue (stripPlus text))
  else none

theorem parseHex_eq_some_iff {bits : Nat} {text : Text} {value : Nat} :
    parseHex bits text = some value ↔ IsHex (stripPlus text) ∧
      hexValue (stripPlus text) < 2 ^ bits ∧ value = hexValue (stripPlus text) := by
  unfold parseHex
  constructor
  · intro read
    split at read
    · rename_i fits
      exact ⟨fits.1, fits.2, (Option.some.inj read).symm⟩
    · cases read
  · rintro ⟨isHex, fits, rfl⟩
    exact if_pos ⟨isHex, fits⟩

/-- Text without its leading zeros. -/
def trimZeros (text : Text) : Text := text.dropWhile (· = '0')

/-- Text without the prefix of a hex word, where it has one. -/
def stripHexPrefix : Text → Text
  | '0' :: 'x' :: rest => rest
  | other => other

theorem hexDigit_lt (char : Char) : (hexDigit char).getD 0 < 16 := by
  have digits : '0'.toNat = 48 ∧ '9'.toNat = 57 ∧ 'a'.toNat = 97 ∧ 'f'.toNat = 102 ∧
      'A'.toNat = 65 ∧ 'F'.toNat = 70 := by decide
  unfold hexDigit
  split
  · rename_i decimal
    have atMost : char.toNat ≤ '9'.toNat := decimal.2
    rw [Option.getD_some]
    omega
  · split
    · rename_i lower
      have atMost : char.toNat ≤ 'f'.toNat := lower.2
      rw [Option.getD_some]
      omega
    · split
      · rename_i upper
        have atMost : char.toNat ≤ 'F'.toNat := upper.2
        rw [Option.getD_some]
        omega
      · rw [Option.getD_none]
        omega

theorem isHex_plus : isHex '+' = false := by decide

theorem stripPlus_of_ne {char : Char} {rest : Text} (other : char ≠ '+') :
    stripPlus (char :: rest) = char :: rest := by
  unfold stripPlus
  split
  · rename_i isPlus
    exact absurd (List.cons.inj isPlus).1 other
  · rfl

theorem isHex_zero : isHex '0' = true := by decide

theorem IsHex.not_plus {text rest : Text} (hex : IsHex text) : text ≠ '+' :: rest := by
  rintro rfl
  have digits := hex.2
  rw [List.all_cons, isHex_plus] at digits
  cases digits

/-- Zeros read first change no value. -/
theorem hexValue_trimZeros (text : Text) : hexValue (trimZeros text) = hexValue text := by
  induction text with
  | nil => rfl
  | cons char text inductionHypothesis =>
      by_cases zero : char = '0'
      · subst zero
        rw [trimZeros, List.dropWhile_cons_of_pos (by decide), ← trimZeros, inductionHypothesis]
        rfl
      · rw [trimZeros, List.dropWhile_cons_of_neg (by simpa using zero)]

theorem all_isHex_trimZeros (text : Text) : (trimZeros text).all isHex = text.all isHex := by
  induction text with
  | nil => rfl
  | cons char text inductionHypothesis =>
      by_cases zero : char = '0'
      · subst zero
        rw [trimZeros, List.dropWhile_cons_of_pos (by decide), ← trimZeros, inductionHypothesis,
          List.all_cons, isHex_zero, Bool.true_and]
      · rw [trimZeros, List.dropWhile_cons_of_neg (by simpa using zero)]

/-- Text is all zeros where nothing is left of it without them. -/
theorem trimZeros_eq_nil_iff {text : Text} :
    trimZeros text = [] ↔ text.all (· = '0') = true := by
  rw [trimZeros, List.dropWhile_eq_nil_iff, List.all_eq_true]

/-- A hex word as the decoders read it: without its leading zeros, or zero where it is nothing
else. -/
def readWord (bits : Nat) (hex : Text) : Option Nat :=
  (parseHex bits (trimZeros hex)).or (if hex.all (· = '0') then some 0 else none)

/-- A plus sign stands where a word's first digit other than zero would. -/
def SignedHex (hex : Text) : Prop :=
  (trimZeros hex).head? = some '+' ∧ IsHex (trimZeros hex).tail

instance (hex : Text) : Decidable (SignedHex hex) := inferInstanceAs (Decidable (_ ∧ _))

/-- The value of a word, a plus sign among its digits or not. -/
def wordValue (hex : Text) : Nat :=
  if (trimZeros hex).head? = some '+' then hexValue (trimZeros hex).tail else hexValue hex

theorem wordValue_of_isHex {hex : Text} (digits : hex.all isHex = true) :
    wordValue hex = hexValue hex := by
  unfold wordValue
  rw [if_neg]
  intro plus
  obtain ⟨rest, isRest⟩ := List.head?_eq_some_iff.mp plus
  rw [← all_isHex_trimZeros, isRest, List.all_cons, isHex_plus] at digits
  cases digits

/-- A plus sign is no hex digit. -/
theorem SignedHex.not_all_isHex {hex : Text} (signed : SignedHex hex) :
    ¬ hex.all isHex = true := by
  intro digits
  obtain ⟨rest, isRest⟩ := List.head?_eq_some_iff.mp signed.1
  rw [← all_isHex_trimZeros, isRest, List.all_cons, isHex_plus] at digits
  cases digits

/-- **What a hex word is read as.**  Digits within the width, a plus sign before them or not. -/
theorem readWord_eq_some_iff {bits : Nat} {hex : Text} {value : Nat} :
    readWord bits hex = some value ↔
      (hex.all isHex = true ∨ SignedHex hex) ∧ wordValue hex < 2 ^ bits ∧
        value = wordValue hex := by
  have digits := all_isHex_trimZeros hex
  have sameValue := hexValue_trimZeros hex
  have zeros := @trimZeros_eq_nil_iff hex
  unfold readWord SignedHex wordValue
  cases isTrimmed : trimZeros hex with
  | nil =>
      rw [isTrimmed] at digits sameValue
      rw [if_pos (zeros.mp isTrimmed), ← digits, ← sameValue]
      have positive : 0 < 2 ^ bits := Nat.pow_pos (by decide)
      constructor
      · intro read
        obtain rfl := Option.some.inj read
        exact ⟨.inl rfl, positive, rfl⟩
      · rintro ⟨_, _, rfl⟩
        rfl
  | cons char rest =>
      have nonzero : ¬ hex.all (· = '0') = true := fun isZero => by
        rw [zeros.mpr isZero] at isTrimmed
        cases isTrimmed
      rw [isTrimmed] at digits sameValue
      rw [if_neg nonzero, Option.or_none, ← digits, ← sameValue]
      by_cases plus : char = '+'
      · subst plus
        have notHex : ('+' :: rest).all isHex = false := by rw [List.all_cons, isHex_plus]; rfl
        simp only [parseHex, stripPlus, notHex, List.head?_cons, List.tail_cons, if_true, true_and,
          Bool.false_eq_true, false_or]
        constructor
        · intro read
          split at read
          · rename_i fits
            exact ⟨fits.1, fits.2, (Option.some.inj read).symm⟩
          · cases read
        · rintro ⟨isDigits, fits, rfl⟩
          exact if_pos ⟨isDigits, fits⟩
      · have head : ¬ (char :: rest).head? = some '+' := by simpa using plus
        rw [parseHex, stripPlus_of_ne plus, if_neg head]
        constructor
        · intro read
          split at read
          · rename_i fits
            exact ⟨.inl fits.1.2, fits.2, (Option.some.inj read).symm⟩
          · cases read
        · rintro ⟨isDigits | ⟨isPlus, _⟩, fits, rfl⟩
          · exact if_pos ⟨⟨List.cons_ne_nil _ _, isDigits⟩, fits⟩
          · exact absurd isPlus head

/-- How many bytes a text is encoded in. -/
def byteLength (text : Text) : Nat := (text.map Char.utf8Size).sum

/-- A text from one of its bytes on, `none` inside a character. -/
def dropBytes : Nat → Text → Option Text
  | 0, text => some text
  | _ + 1, [] => none
  | count + 1, char :: rest =>
      if char.utf8Size ≤ count + 1 then dropBytes (count + 1 - char.utf8Size) rest else none

/-- A hex digit takes one byte. -/
theorem utf8Size_of_isHex {char : Char} (hex : isHex char = true) : char.utf8Size = 1 := by
  have atMost : char.val ≤ 0x7F := by
    unfold isHex hexDigit at hex
    split at hex
    · rename_i decimal
      exact UInt32.le_trans decimal.2 (by decide)
    · split at hex
      · rename_i lower
        exact UInt32.le_trans lower.2 (by decide)
      · split at hex
        · rename_i upper
          exact UInt32.le_trans upper.2 (by decide)
        · cases hex
  exact if_pos atMost

theorem byteLength_of_isHex {text : Text} (hex : text.all isHex = true) :
    byteLength text = text.length := by
  induction text with
  | nil => rfl
  | cons char text inductionHypothesis =>
      rw [List.all_cons, Bool.and_eq_true] at hex
      rw [byteLength, List.map_cons, List.sum_cons, utf8Size_of_isHex hex.1, ← byteLength,
        inductionHypothesis hex.2, List.length_cons, Nat.add_comm]

/-- Hex digits may be cut anywhere. -/
theorem dropBytes_of_isHex {text : Text} (hex : text.all isHex = true) {count : Nat}
    (within : count ≤ text.length) : dropBytes count text = some (text.drop count) := by
  induction text generalizing count with
  | nil =>
      obtain rfl : count = 0 := Nat.le_zero.mp within
      rfl
  | cons char text inductionHypothesis =>
      rw [List.all_cons, Bool.and_eq_true] at hex
      cases count with
      | zero => rfl
      | succ count =>
          rw [dropBytes, utf8Size_of_isHex hex.1, if_pos (Nat.le_add_left _ _),
            Nat.add_sub_cancel, inductionHypothesis hex.2 (Nat.le_of_succ_le_succ within),
            List.drop_succ_cons]

end Text
end Library
