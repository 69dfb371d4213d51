import Mathlib.Algebra.Field.Rat
import Mathlib.Algebra.Order.Ring.Rat
import Mathlib.Tactic.Positivity
import Mathlib.Tactic.Ring
import Datawatch.Library.Text

/-!
# Decimal numerals

A sign, digits and a point, the number they spell, and that number rounded to fewer decimals.
-/

namespace Library

/-- A number spelled in decimal: its digits, the last `scale` of them after the point. -/
structure Numeral where
  negative : Bool
  digits : Nat
  scale : Nat
deriving DecidableEq

namespace Numeral

/-- The numeral a text is: an optional sign, and digits with at most one point. -/
def ofText (text : Text) : Option Numeral :=
  let unsigned := match text with
    | '-' :: rest => rest
    | '+' :: rest => rest
    | other => other
  let parts := (Text.splitOnce '.' unsigned).getD (unsigned, [])
  (Text.parseDigits (parts.1 ++ parts.2)).map fun digits =>
    ⟨decide (text.head? = some '-'), digits, parts.2.length⟩

/-- A coefficient with a numeral's sign. -/
def signed (numeral : Numeral) (coefficient : Nat) : Int :=
  if numeral.negative then -coefficient else coefficient

/-- The number a numeral spells. -/
def value (numeral : Numeral) : ℚ := numeral.signed numeral.digits / 10 ^ numeral.scale

/-- Digits without the last few, rounded half away from zero. -/
def roundOff (digits dropped : Nat) : Nat := (digits + 10 ^ dropped / 2) / 10 ^ dropped

/-- A numeral's digits rounded to a scale. -/
def roundedTo (numeral : Numeral) (scale : Nat) : Nat :=
  roundOff numeral.digits (numeral.scale - scale)

/-- A numeral spells no decimals beyond a scale. -/
def Within (numeral : Numeral) (scale : Nat) : Prop :=
  10 ^ (numeral.scale - scale) ∣ numeral.digits

instance (numeral : Numeral) (scale : Nat) : Decidable (numeral.Within scale) :=
  inferInstanceAs (Decidable (_ ∣ _))

/-- The widest scale at which a bound holds a numeral rounded. -/
structure HeldAt (bound widest : Nat) (numeral : Numeral) (scale : Nat) : Prop where
  own : scale ≤ numeral.scale
  atMost : scale ≤ widest
  held : numeral.roundedTo scale < bound
  wider : ∀ other, scale < other → other ≤ numeral.scale → other ≤ widest →
    bound ≤ numeral.roundedTo other

/-- The widest scale at which a bound holds a numeral rounded, looked for from the widest down. -/
def heldScale (bound widest : Nat) (numeral : Numeral) : Option Nat :=
  (List.range (min numeral.scale widest + 1)).reverse.find? fun scale =>
    numeral.roundedTo scale < bound

variable {numeral : Numeral} {bound widest scale : Nat}

/-- Rounding off zeros changes no number, and nothing else leaves one unchanged. -/
theorem roundOff_mul_eq_iff {digits dropped : Nat} :
    roundOff digits dropped * 10 ^ dropped = digits ↔ 10 ^ dropped ∣ digits := by
  constructor
  · intro same
    exact ⟨roundOff digits dropped, by rw [Nat.mul_comm, same]⟩
  · rintro ⟨kept, rfl⟩
    have positive : 0 < 10 ^ dropped := Nat.pow_pos (by decide)
    rw [roundOff, Nat.add_comm, Nat.add_mul_div_left _ _ positive,
      Nat.div_eq_of_lt (Nat.div_lt_self positive (by decide)), Nat.zero_add, Nat.mul_comm]

/-- **A rounded numeral spells the same number exactly where it drops zeros only.** -/
theorem value_eq_iff (own : scale ≤ numeral.scale) :
    (numeral.signed (numeral.roundedTo scale) : ℚ) / 10 ^ scale = numeral.value ↔
      numeral.Within scale := by
  have split : (10 : ℚ) ^ numeral.scale = 10 ^ scale * 10 ^ (numeral.scale - scale) := by
    rw [← pow_add, Nat.add_sub_cancel' own]
  have integers : (numeral.signed (numeral.roundedTo scale) : ℚ) / 10 ^ scale = numeral.value ↔
      numeral.signed (numeral.roundedTo scale) * (10 : Int) ^ (numeral.scale - scale) =
        numeral.signed numeral.digits := by
    rw [value, split, div_eq_div_iff (by positivity) (by positivity), ← mul_assoc,
      mul_right_comm, mul_left_inj' (by positivity)]
    exact_mod_cast Iff.rfl
  rw [integers, Within, ← roundOff_mul_eq_iff, roundedTo]
  cases isNegative : numeral.negative
  · simp only [signed, isNegative, Bool.false_eq_true, if_false]
    exact_mod_cast Iff.rfl
  · simp only [signed, isNegative, if_true, neg_mul, neg_inj]
    exact_mod_cast Iff.rfl

/-- Looking down from a bound finds the greatest number of a kind up to it. -/
theorem find?_reverse_range_eq_some {selects : Nat → Bool} {bound found : Nat} :
    (List.range bound).reverse.find? selects = some found ↔
      found < bound ∧ selects found = true ∧
        ∀ other, found < other → other < bound → selects other = false := by
  induction bound with
  | zero => simp
  | succ bound inductionHypothesis =>
      rw [List.range_succ, List.reverse_append, List.reverse_singleton, List.singleton_append]
      cases isTop : selects bound with
      | true =>
          rw [List.find?_cons_of_pos isTop, Option.some.injEq]
          constructor
          · rintro rfl
            exact ⟨Nat.lt_succ_self _, isTop, fun other above below => by omega⟩
          · rintro ⟨below, _, none⟩
            by_contra different
            rw [none bound (by omega) (Nat.lt_succ_self _)] at isTop
            cases isTop
      | false =>
          rw [List.find?_cons_of_neg (by simp [isTop]), inductionHypothesis]
          constructor
          · rintro ⟨below, selected, none⟩
            refine ⟨by omega, selected, fun other above within => ?_⟩
            by_cases top : other = bound
            · rw [top, isTop]
            · exact none other above (by omega)
          · rintro ⟨below, selected, none⟩
            refine ⟨?_, selected, fun other above within => none other above (by omega)⟩
            by_contra top
            obtain rfl : found = bound := by omega
            rw [isTop] at selected
            cases selected

/-- The scale looked for is the widest that holds the numeral. -/
theorem heldScale_eq_some_iff :
    heldScale bound widest numeral = some scale ↔ HeldAt bound widest numeral scale := by
  rw [heldScale, find?_reverse_range_eq_some]
  constructor
  · rintro ⟨below, isHeld, none⟩
    refine ⟨by omega, by omega, of_decide_eq_true isHeld, ?_⟩
    intro other above own atMost
    exact not_lt.mp (of_decide_eq_false (none other above (by omega)))
  · rintro ⟨own, atMost, held, wider⟩
    refine ⟨by omega, decide_eq_true held, ?_⟩
    intro other above below
    exact decide_eq_false (not_lt.mpr (wider other above (by omega) (by omega)))

/-- There is one widest scale. -/
theorem HeldAt.unique {other : Nat} (isScale : HeldAt bound widest numeral scale)
    (isOther : HeldAt bound widest numeral other) : scale = other :=
  Option.some.inj ((heldScale_eq_some_iff.mpr isScale).symm.trans
    (heldScale_eq_some_iff.mpr isOther))

/-- No scale is found where none holds the numeral. -/
theorem heldScale_eq_none_iff :
    heldScale bound widest numeral = none ↔ ∀ scale, ¬ HeldAt bound widest numeral scale := by
  simp only [Option.eq_none_iff_forall_ne_some, ne_eq, heldScale_eq_some_iff]

end Numeral
end Library
