import Datawatch.Library.Attempt
import Datawatch.Library.Numeral
import Datawatch.Wire.Event

/-!
# Exact numbers

What a number may hold, and how a venue's text is read as one.
-/

namespace Datawatch
namespace Wire

open Library

/-- The number a decimal is. -/
def Num.value (num : Num) : ℚ := num.mantissa / 10 ^ num.scale

/-- A decimal of 96 bits, at a scale of at most 28. -/
structure Decimal extends Num where
  /-- Ninety-six bits hold the mantissa. -/
  bits : mantissa.natAbs < 2 ^ 96
  scaleAtMost : scale ≤ 28
deriving DecidableEq

/-- An integer as a decimal, which ninety-six bits have to hold. -/
def Decimal.fromU128 (raw : Nat) : Attempt Decimal :=
  if bits : raw < 2 ^ 96 then .returns ⟨⟨raw, 0⟩, bits, Nat.zero_le _⟩ else .panics

/-- The same digits at another scale, of at most 28. -/
def Decimal.setScale (value : Decimal) (scale : Nat) : Option Decimal :=
  if atMost : scale ≤ 28 then some ⟨⟨value.mantissa, scale⟩, value.bits, atMost⟩ else none

/-- A numeral at a scale that holds it. -/
def Decimal.ofNumeral (numeral : Numeral) (scale : Nat)
    (held : numeral.HeldAt (2 ^ 96) 28 scale) : Decimal where
  mantissa := numeral.signed (numeral.roundedTo scale)
  scale := scale
  bits := by
    have isHeld := held.held
    unfold Numeral.signed
    split <;> omega
  scaleAtMost := held.atMost

/-- How a text is read as a decimal: a numeral at the widest scale that holds it, its further
digits rounded, and none where even its whole part does not fit. -/
structure RoundsWhatItCannotHold (fromStr : Text → Option Decimal) : Prop where
  held : ∀ text numeral, Numeral.ofText text = some numeral →
    ∀ scale held, fromStr text = some (.ofNumeral numeral scale held)
  refused : ∀ text numeral, Numeral.ofText text = some numeral →
    (∀ scale, ¬ numeral.HeldAt (2 ^ 96) 28 scale) → fromStr text = none

/-- Why a numeric field could not be read. -/
inductive NumError
  | notANumber (field value : Text)
  | absent (field : Text)
deriving DecidableEq

/-- The number a field's text spells, refused by the field's name. -/
def requireNum (fromStr : Text → Option Decimal) (field text : Text) : Except NumError Decimal :=
  match fromStr text with
  | some number => .ok number
  | none => .error (.notANumber field text)

/-- A field that may be absent. -/
def require (fromStr : Text → Option Decimal) (field : Text) : Option Text →
    Except NumError Decimal
  | some text => requireNum fromStr field text
  | none => .error (.absent field)

/-- A reader of numerals that rounds what it cannot hold. -/
def readNumeral (text : Text) : Option Decimal :=
  (Numeral.ofText text).bind fun numeral =>
    match isHeld : numeral.heldScale (2 ^ 96) 28 with
    | some scale => some (.ofNumeral numeral scale (Numeral.heldScale_eq_some_iff.mp isHeld))
    | none => none

theorem roundsWhatItCannotHold_readNumeral : RoundsWhatItCannotHold readNumeral := by
  refine ⟨?_, ?_⟩
  · intro text numeral isNumeral scale held
    rw [readNumeral, isNumeral, Option.bind_some]
    split
    · rename_i other isHeld
      obtain rfl := (Numeral.heldScale_eq_some_iff.mp isHeld).unique held
      rfl
    · rename_i notHeld
      exact absurd held (Numeral.heldScale_eq_none_iff.mp notHeld scale)
  · intro text numeral isNumeral none
    rw [readNumeral, isNumeral, Option.bind_some]
    split
    · rename_i other isHeld
      exact absurd (Numeral.heldScale_eq_some_iff.mp isHeld) (none other)
    · rfl

end Wire
end Datawatch
