import Datawatch.Ledger.Project
import Datawatch.Tape.Batch

/-!
# Scaling a number to its column

Which numbers a `decimal(38,18)` column holds, and which the two copies of `scaled` accept.
-/

namespace Datawatch
namespace Tape

open Library Wire

/-- A number is an integer of a `decimal(38,18)` column. -/
def Held (value : ℚ) (mantissa : Int) : Prop :=
  value * 10 ^ 18 = mantissa ∧ |mantissa| < 10 ^ 38

/-- The product `scaled` checks fits the integer it is made in. -/
def FitsI128 (product : Int) : Prop := -2 ^ 127 ≤ product ∧ product < 2 ^ 127

instance (product : Int) : Decidable (FitsI128 product) := inferInstanceAs (Decidable (_ ∧ _))

/-- A number is scaled exactly: it is accepted, as the integer of its column, exactly where the
column holds it. -/
def ScaledExactly (value : Wire.Num) : Prop :=
  ∀ mantissa, scaled value = .ok mantissa ↔ Held value.value mantissa

/-- Where scaling is exact: no decimals beyond the column's that are zeros only, and no integer
beyond its digits that still fits the machine's. -/
def Scalable (value : Wire.Num) : Prop :=
  if value.scale ≤ 18 then
    FitsI128 (value.mantissa * 10 ^ (18 - value.scale)) →
      |value.mantissa * 10 ^ (18 - value.scale)| < 10 ^ 38
  else ¬ (10 : Int) ^ (value.scale - 18) ∣ value.mantissa

/-- A text is refused, or scaled to exactly the number it spells. -/
def ReadExactly (fromStr : Text → Option Decimal) (field text : Text) (numeral : Numeral) : Prop :=
  ∀ number mantissa, requireNum fromStr field text = .ok number →
    scaled number.toNum = .ok mantissa → numeral.value * 10 ^ 18 = mantissa

/-- A numeral whose further digits are rounded away with at most eighteen decimals left, within
the machine's integer. -/
def LosesDigits (numeral : Numeral) : Prop :=
  ∃ scale, numeral.HeldAt (2 ^ 96) 28 scale ∧ scale ≤ 18 ∧
    FitsI128 (numeral.signed (numeral.roundedTo scale) * 10 ^ (18 - scale)) ∧
    ¬ numeral.Within scale

/-- What `scaled` accepts. -/
theorem scaled_eq_ok_iff {value : Wire.Num} {mantissa : Int} :
    scaled value = .ok mantissa ↔ value.scale ≤ 18 ∧
      FitsI128 (value.mantissa * 10 ^ (18 - value.scale)) ∧
      mantissa = value.mantissa * 10 ^ (18 - value.scale) := by
  unfold scaled priceScale
  split
  · rename_i beyond
    exact iff_of_false (by simp) fun within => absurd within.1 (by omega)
  · rename_i within
    simp only
    split
    · rename_i fits
      rw [Except.ok.injEq]
      exact ⟨fun same => ⟨not_lt.mp within, fits, same.symm⟩, fun accepted => accepted.2.2.symm⟩
    · rename_i unfit
      exact iff_of_false (by simp) fun accepted => unfit accepted.2.1

/-- A number of few decimals is the product at the column's scale. -/
theorem value_mul_eq {value : Wire.Num} (within : value.scale ≤ 18) :
    value.value * 10 ^ 18 = (value.mantissa * 10 ^ (18 - value.scale) : Int) := by
  have split : (10 : ℚ) ^ 18 = 10 ^ value.scale * 10 ^ (18 - value.scale) := by
    rw [← pow_add, Nat.add_sub_cancel' within]
  rw [Wire.Num.value, split, ← mul_assoc, div_mul_cancel₀ _ (by positivity)]
  push_cast
  rfl

/-- A number of more decimals than the column's is an integer of it where they are zeros. -/
theorem value_mul_eq_iff {value : Wire.Num} (beyond : 18 < value.scale) {mantissa : Int} :
    value.value * 10 ^ 18 = mantissa ↔
      value.mantissa = mantissa * 10 ^ (value.scale - 18) := by
  have split : (10 : ℚ) ^ value.scale = 10 ^ 18 * 10 ^ (value.scale - 18) := by
    rw [← pow_add, Nat.add_sub_cancel' beyond.le]
  rw [Wire.Num.value, split, div_mul_eq_mul_div, mul_comm ((10 : ℚ) ^ 18),
    mul_div_mul_right _ _ (by positivity), div_eq_iff (by positivity)]
  exact_mod_cast Iff.rfl

theorem fitsI128_of_lt {product : Int} (small : |product| < 10 ^ 38) : FitsI128 product := by
  rw [abs_lt] at small
  unfold FitsI128
  omega

/-- **A decimal is scaled exactly where it has no needless decimals and no needless digits.** -/
theorem scaledExactly_iff (value : Decimal) :
    ScaledExactly value.toNum ↔ Scalable value.toNum := by
  unfold ScaledExactly Scalable
  split
  · rename_i within
    constructor
    · intro exactly fits
      exact ((exactly _).mp (scaled_eq_ok_iff.mpr ⟨within, fits, rfl⟩)).2
    · intro small mantissa
      rw [scaled_eq_ok_iff, Held, value_mul_eq within]
      constructor
      · rintro ⟨_, fits, rfl⟩
        exact ⟨rfl, small fits⟩
      · rintro ⟨same, below⟩
        obtain rfl : _ = mantissa := Int.cast_injective same
        exact ⟨within, fitsI128_of_lt below, rfl⟩
  · rename_i beyond
    have refused : ∀ mantissa, scaled value.toNum ≠ .ok mantissa := fun mantissa accepted =>
      beyond (scaled_eq_ok_iff.mp accepted).1
    constructor
    · rintro exactly ⟨mantissa, isMultiple⟩
      apply refused mantissa
      refine (exactly mantissa).mpr ⟨(value_mul_eq_iff (not_le.mp beyond)).mpr ?_, ?_⟩
      · rw [isMultiple, mul_comm]
      · have bits := value.bits
        rw [isMultiple, Int.natAbs_mul] at bits
        have atMost : mantissa.natAbs ≤
            ((10 : Int) ^ (value.scale - 18)).natAbs * mantissa.natAbs :=
          Nat.le_mul_of_pos_left _ (Int.natAbs_pos.mpr (by positivity))
        rw [Int.abs_eq_natAbs]
        omega
    · intro notMultiple mantissa
      refine iff_of_false (refused mantissa) ?_
      rintro ⟨same, _⟩
      apply notMultiple
      rw [(value_mul_eq_iff (not_le.mp beyond)).mp same]
      exact Dvd.intro_left _ rfl

/-- **A text is read exactly, or refused, unless its further digits are rounded away within the
column's decimals.** -/
theorem readExactly_iff {fromStr : Text → Option Decimal} (reads : RoundsWhatItCannotHold fromStr)
    (field : Text) {text : Text} {numeral : Numeral}
    (isNumeral : Numeral.ofText text = some numeral) :
    ReadExactly fromStr field text numeral ↔ ¬ LosesDigits numeral := by
  have scaledValue : ∀ scale held mantissa,
      scaled (Decimal.ofNumeral numeral scale held).toNum = .ok mantissa →
        (numeral.value * 10 ^ 18 = mantissa ↔ numeral.Within scale) := by
    intro scale held mantissa accepted
    obtain ⟨within, _, rfl⟩ := scaled_eq_ok_iff.mp accepted
    rw [← value_mul_eq within, mul_left_inj' (by positivity), eq_comm,
      ← Numeral.value_eq_iff held.own]
    rfl
  unfold ReadExactly requireNum
  constructor
  · rintro exactly ⟨scale, held, within, fits, loses⟩
    have accepted : scaled (Decimal.ofNumeral numeral scale held).toNum = .ok _ :=
      scaled_eq_ok_iff.mpr ⟨within, fits, rfl⟩
    apply loses
    apply (scaledValue scale held _ accepted).mp
    refine exactly (.ofNumeral numeral scale held) _ ?_ accepted
    rw [reads.held text numeral isNumeral scale held]
  · intro keeps number mantissa isNumber accepted
    cases isHeld : numeral.heldScale (2 ^ 96) 28 with
    | none =>
        rw [reads.refused text numeral isNumeral (Numeral.heldScale_eq_none_iff.mp isHeld)]
          at isNumber
        cases isNumber
    | some scale =>
        have held := Numeral.heldScale_eq_some_iff.mp isHeld
        rw [reads.held text numeral isNumeral scale held] at isNumber
        obtain rfl := Except.ok.inj isNumber
        apply (scaledValue scale held mantissa accepted).mpr
        obtain ⟨within, fits, _⟩ := scaled_eq_ok_iff.mp accepted
        by_contra loses
        exact keeps ⟨scale, held, within, fits, loses⟩

/-- The two copies accept the same numbers, as the same integers, and refuse the rest with the
same text. -/
theorem scaled_eq_ledger (value : Wire.Num) :
    (∀ mantissa, scaled value = .ok mantissa ↔ Ledger.scaled value = .ok mantissa) ∧
      ∀ shown, scaled value = .error (.precision shown) ↔
        Ledger.scaled value = .error (.precision shown) := by
  unfold scaled Ledger.scaled priceScale Ledger.moneyScale
  split
  · exact ⟨fun mantissa => by simp, fun shown => by simp⟩
  · simp only
    split
    · exact ⟨fun mantissa => by simp, fun shown => by simp⟩
    · exact ⟨fun mantissa => by simp, fun shown => by simp⟩

/-- **Scaling is exact but for needless decimals, needless digits and digits rounded on the way
in.**  A decimal is accepted as its column's integer exactly where the column holds it, unless its
decimals beyond the column's are zeros only or its integer exceeds the column's digits and not the
machine's; both copies answer alike; and a text is refused or read exactly, unless digits its
decimal cannot hold are rounded away with at most eighteen decimals left. -/
theorem scaled_exact_iff (fromStr : Text → Option Decimal)
    (reads : RoundsWhatItCannotHold fromStr) :
    (∀ value : Decimal, ScaledExactly value.toNum ↔ Scalable value.toNum) ∧
      (∀ value : Decimal, ∀ mantissa, scaled value.toNum = .ok mantissa ↔
        Ledger.scaled value.toNum = .ok mantissa) ∧
      ∀ field text numeral, Numeral.ofText text = some numeral →
        (ReadExactly fromStr field text numeral ↔ ¬ LosesDigits numeral) :=
  ⟨scaledExactly_iff, fun value => (scaled_eq_ledger value.toNum).1,
    fun field _ _ isNumeral => readExactly_iff reads field isNumeral⟩

/-- One and a half, as a decimal and as a text. -/
theorem scaled_exact_oneAndHalf :
    (ScaledExactly ⟨15, 1⟩ ↔ Scalable ⟨15, 1⟩) ∧
      (scaled ⟨15, 1⟩ = .ok 1500000000000000000 ↔
        Ledger.scaled ⟨15, 1⟩ = .ok 1500000000000000000) ∧
      (ReadExactly readNumeral "price".toList "1.5".toList ⟨false, 15, 1⟩ ↔
        ¬ LosesDigits ⟨false, 15, 1⟩) :=
  have exactly := scaled_exact_iff readNumeral roundsWhatItCannotHold_readNumeral
  ⟨exactly.1 ⟨⟨15, 1⟩, by decide, by decide⟩, exactly.2.1 ⟨⟨15, 1⟩, by decide, by decide⟩ _,
    exactly.2.2 _ _ _ (by decide +kernel)⟩

/-- **Numbers scaled wrongly.**  A one with nineteen zeros after its point is refused, ten to the
twentieth is accepted beyond the column's digits, and a text of thirty digits is accepted as a
number of twenty-nine. -/
theorem scaled_inexact :
    scaled ⟨10 ^ 19, 19⟩ = .error (.precision "1.0000000000000000000".toList) ∧
      Held (Wire.Num.value ⟨10 ^ 19, 19⟩) (10 ^ 18) ∧
      scaled ⟨10 ^ 20, 0⟩ = .ok (10 ^ 38) ∧ ¬ Held (Wire.Num.value ⟨10 ^ 20, 0⟩) (10 ^ 38) ∧
      ¬ ReadExactly readNumeral "price".toList "12345678901.1234567890123456789".toList
        ⟨false, 123456789011234567890123456789, 19⟩ := by
  refine ⟨by decide +kernel, ⟨by norm_num [Wire.Num.value], by decide⟩, by decide +kernel,
    fun held => absurd held.2 (by decide), ?_⟩
  rw [readExactly_iff roundsWhatItCannotHold_readNumeral _ (by decide +kernel), not_not]
  exact ⟨18, Numeral.heldScale_eq_some_iff.mp (by decide +kernel), le_rfl, by decide +kernel,
    by decide +kernel⟩

end Tape
end Datawatch
