import Datawatch.Wire.Event

/-!
# Refused tokens

Why a text is no token: what the one constructor answers where it makes none.
-/

namespace Datawatch
namespace Wire

open Library

/-- Why a token was refused. -/
inductive TokenError
  | empty (what value : Text)
  | illegal (what value : Text) (char : Char)
  | tooLong (what value : Text) (max : Nat)
deriving DecidableEq

/-- The bytes a text takes. -/
def byteLength (text : Text) : Nat := (text.map Char.utf8Size).sum

/-- Refuses an empty text, one too long, and the first character that is not permitted. -/
def validate (what value : Text) : Except TokenError Unit :=
  if value = [] then .error (.empty what value)
  else if maxToken < byteLength value then .error (.tooLong what value maxToken)
  else match value.find? fun char => !permitted char with
    | some char => .error (.illegal what value char)
    | none => .ok ()

/-- A permitted character takes one byte. -/
theorem utf8Size_of_permitted {char : Char} (allowed : permitted char = true) :
    char.utf8Size = 1 := by
  rw [Char.utf8Size_eq_one_iff]
  delta permitted Char.isAlphanum Char.isAlpha Char.isUpper Char.isLower Char.isDigit at allowed
  simp only [Bool.or_eq_true, Bool.and_eq_true, decide_eq_true_eq] at allowed
  rcases allowed with ((((⟨_, upper⟩ | ⟨_, lower⟩) | ⟨_, digit⟩) | rfl) | rfl)
  · exact UInt32.le_trans upper (by decide)
  · exact UInt32.le_trans lower (by decide)
  · exact UInt32.le_trans digit (by decide)
  · decide
  · decide

/-- A text of permitted characters takes a byte for each. -/
theorem byteLength_of_permitted {text : Text} (allowed : text.all permitted = true) :
    byteLength text = text.length := by
  induction text with
  | nil => rfl
  | cons char text inductionHypothesis =>
      rw [List.all_cons, Bool.and_eq_true] at allowed
      have rest := inductionHypothesis allowed.2
      rw [byteLength] at rest ⊢
      rw [List.map_cons, List.sum_cons, utf8Size_of_permitted allowed.1, rest, List.length_cons,
        Nat.add_comm]

/-- What passes is nonempty, bounded, and of permitted characters only. -/
theorem validate_eq_ok_iff {what value : Text} :
    validate what value = .ok () ↔
      value ≠ [] ∧ value.length ≤ maxToken ∧ value.all permitted = true := by
  have allowed_iff : (value.find? fun char => !permitted char) = none ↔
      value.all permitted = true := by
    simp [List.find?_eq_none, List.all_eq_true]
  unfold validate
  split
  · simp_all
  split
  next tooLong =>
    refine ⟨fun impossible => absurd impossible (by simp), fun legal => ?_⟩
    rw [byteLength_of_permitted legal.2.2] at tooLong
    exact absurd legal.2.1 (Nat.not_le.mpr tooLong)
  split
  next char found =>
    refine ⟨fun impossible => absurd impossible (by simp), fun legal => ?_⟩
    rw [allowed_iff.mpr legal.2.2] at found
    cases found
  next nonempty short _ noneRefused =>
    have allowed := allowed_iff.mp noneRefused
    rw [byteLength_of_permitted allowed] at short
    exact ⟨fun _ => ⟨nonempty, Nat.not_lt.mp short, allowed⟩, fun _ => rfl⟩

/-- A token of a kind, or why there is none. -/
def Token.tryNew (what value : Text) : Except TokenError Token :=
  match validated : validate what value with
  | .error refused => .error refused
  | .ok () => .ok ⟨value, validate_eq_ok_iff.mp validated⟩

/-- A text makes the token that spells it, or none. -/
theorem Token.tryNew_eq_ok_iff {what value : Text} {token : Token} :
    Token.tryNew what value = .ok token ↔ value = token.text := by
  unfold Token.tryNew
  split
  next refused isRefused =>
    refine ⟨fun impossible => absurd impossible (by simp), fun same => ?_⟩
    rw [same, validate_eq_ok_iff.mpr token.legal] at isRefused
    cases isRefused
  next validated =>
    rw [Except.ok.injEq]
    exact ⟨fun same => congrArg Token.text same, fun same => Token.eq_of_text same⟩

/-- The constructor that says why agrees with the one that does not. -/
theorem Token.tryNew_eq_ok_iff_new {what value : Text} {token : Token} :
    Token.tryNew what value = .ok token ↔ Token.new value = some token := by
  rw [Token.tryNew_eq_ok_iff, Token.new, Option.dite_none_right_eq_some]
  constructor
  · intro same
    exact ⟨same ▸ token.legal, congrArg some (Token.eq_of_text same)⟩
  · intro made
    obtain ⟨_, same⟩ := made
    exact congrArg Token.text (Option.some.inj same)

end Wire
end Datawatch
