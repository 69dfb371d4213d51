import Datawatch.Library.Text

/-!
# Text from bytes

Bytes read as UTF-8, each longest part that no encoding continues replaced by one character.
-/

namespace Library
namespace Text

/-- A byte that continues a sequence. -/
def isContinuation (byte : Nat) : Bool := decide (0x80 ≤ byte ∧ byte ≤ 0xBF)

/-- How many bytes follow the first of a sequence. -/
def following (lead : Nat) : Nat :=
  if 0xC2 ≤ lead ∧ lead ≤ 0xDF then 1
  else if 0xE0 ≤ lead ∧ lead ≤ 0xEF then 2
  else if 0xF0 ≤ lead ∧ lead ≤ 0xF4 then 3
  else 0

/-- A second byte that some encoding continues the first with. -/
def allowsSecond (lead second : Nat) : Bool :=
  if lead = 0xE0 then decide (0xA0 ≤ second ∧ second ≤ 0xBF)
  else if lead = 0xED then decide (0x80 ≤ second ∧ second ≤ 0x9F)
  else if lead = 0xF0 then decide (0x90 ≤ second ∧ second ≤ 0xBF)
  else if lead = 0xF4 then decide (0x80 ≤ second ∧ second ≤ 0x8F)
  else isContinuation second

/-- The bytes that continue a first one. -/
def continued (lead : Nat) : List Nat → List Nat
  | [] => []
  | second :: rest =>
      if 0 < following lead ∧ allowsSecond lead second = true then
        second :: (rest.takeWhile isContinuation).take (following lead - 1)
      else []

/-- Bytes as text, at most so many characters of it. -/
def utf8LossyWithin : Nat → List Nat → Text
  | 0, _ => []
  | _ + 1, [] => []
  | fuel + 1, lead :: rest =>
      if lead < 0x80 then Char.ofNat lead :: utf8LossyWithin fuel rest
      else
        let tail := continued lead rest
        (if 0 < following lead ∧ tail.length = following lead then
          Char.ofNat (tail.foldl (fun code byte => code * 64 + byte % 64)
            (lead % 2 ^ (6 - following lead)))
        else Char.ofNat 0xFFFD) :: utf8LossyWithin fuel (rest.drop tail.length)

/-- Bytes as text. -/
def utf8Lossy (bytes : List Nat) : Text := utf8LossyWithin bytes.length bytes

example : utf8Lossy [0xE2, 0x82, 0xAC, 0xE2, 0x41] = ['€', Char.ofNat 0xFFFD, 'A'] := by
  decide +kernel

end Text
end Library
