import Datawatch.Wire.Decimal

/-!
# The projection's numbers

How the ledger's projection scales a number to its column.
-/

namespace Datawatch
namespace Ledger

open Library Wire

/-- The scale every amount is projected at. -/
def moneyScale : Nat := 18

/-- Why a projection was not written. -/
inductive ProjectError
  /-- The root is missing and cannot be made, or others can read it. -/
  | root
  /-- A number with more decimals than the column holds. -/
  | precision (value : Text)
  | arrow (kind : Kind) (detail : Text)
  | write
deriving DecidableEq

/-- A number, at the scale the column holds: refused rather than rounded. -/
def scaled (value : Wire.Num) : Except ProjectError Int :=
  if moneyScale < value.scale then .error (.precision value.render)
  else
    let product := value.mantissa * 10 ^ (moneyScale - value.scale)
    if -2 ^ 127 ≤ product ∧ product < 2 ^ 127 then .ok product
    else .error (.precision value.render)

end Ledger
end Datawatch
