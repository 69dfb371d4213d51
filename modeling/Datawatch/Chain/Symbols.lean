import Mathlib.Algebra.Ring.Parity
import Datawatch.Chain.Decode

/-!
# The bytes of a symbol

What a text read two bytes at a time spells, where it is cut inside a character, and what its
digits are worth.
-/

namespace Datawatch
namespace Chain

open Library Library.Text

/-- Two characters spell a byte. -/
def IsPair (first second : Char) (byte : Nat) : Prop := parseHex 8 [first, second] = some byte

/-- A text spells bytes, two characters each; one character may be left at its end. -/
inductive Spells : Text → List Nat → Prop
  | done : Spells [] []
  | odd {char : Char} (single : char.utf8Size = 1) : Spells [char] []
  | pair {first second : Char} {rest : Text} {byte : Nat} {bytes : List Nat}
      (isPair : IsPair first second byte) (spells : Spells rest bytes) :
      Spells (first :: second :: rest) (byte :: bytes)

/-- A text has a character that begins or ends inside two of its bytes, after pairs that spell. -/
inductive CutsCharacter : Text → Prop
  | lone {char : Char} (wide : 2 < char.utf8Size) : CutsCharacter [char]
  | first {first second : Char} {rest : Text} (wide : 2 < first.utf8Size) :
      CutsCharacter (first :: second :: rest)
  | second {first second : Char} {rest : Text} (single : first.utf8Size = 1)
      (wide : second.utf8Size ≠ 1) : CutsCharacter (first :: second :: rest)
  | later {first second : Char} {rest : Text} {byte : Nat} (isPair : IsPair first second byte)
      (cuts : CutsCharacter rest) : CutsCharacter (first :: second :: rest)

/-- A pair is two digits, or a plus sign and a digit. -/
theorem isPair_iff {first second : Char} {byte : Nat} :
    IsPair first second byte ↔ isHex second = true ∧
      (isHex first = true ∧ byte = hexValue [first, second] ∨
        first = '+' ∧ byte = hexValue [second]) := by
  have isSmall : ∀ char, (hexDigit char).getD 0 < 16 := hexDigit_lt
  rw [IsPair, parseHex_eq_some_iff]
  by_cases plus : first = '+'
  · subst plus
    have value : hexValue [second] < 2 ^ 8 := by
      have := isSmall second
      simp only [hexValue, hexValueFrom, List.foldl_cons, List.foldl_nil]
      omega
    rw [stripPlus]
    simp only [IsHex, ne_eq, reduceCtorEq, not_false_eq_true, List.all_cons, List.all_nil,
      Bool.and_true, true_and, value, isHex_plus, Bool.false_eq_true, false_and, false_or]
  · have value : hexValue [first, second] < 2 ^ 8 := by
      have isFirst := isSmall first
      have isSecond := isSmall second
      simp only [hexValue, hexValueFrom, List.foldl_cons, List.foldl_nil]
      omega
    rw [stripPlus_of_ne plus]
    simp only [IsHex, ne_eq, reduceCtorEq, not_false_eq_true, List.all_cons, List.all_nil,
      Bool.and_true, Bool.and_eq_true, true_and, value, plus, false_and, or_false]
    rw [and_comm (a := isHex first = true), and_assoc]

/-- Either character of a pair takes one byte. -/
theorem IsPair.utf8Size {first second : Char} {byte : Nat} (isPair : IsPair first second byte) :
    first.utf8Size = 1 ∧ second.utf8Size = 1 := by
  obtain ⟨isSecond, ⟨isFirst, _⟩ | ⟨rfl, _⟩⟩ := isPair_iff.mp isPair
  · exact ⟨utf8Size_of_isHex isFirst, utf8Size_of_isHex isSecond⟩
  · exact ⟨rfl, utf8Size_of_isHex isSecond⟩

/-- **Where a text read in pairs panics.** -/
theorem pairBytes_eq_panics_iff (text : Text) :
    pairBytes text = .panics ↔ CutsCharacter text := by
  fun_induction pairBytes text with
  | case1 => exact iff_of_false (by simp) (by rintro ⟨⟩)
  | case2 char single =>
      refine iff_of_false (by simp) ?_
      rintro ⟨wide⟩
      omega
  | case3 char single double =>
      refine iff_of_false (by simp) ?_
      rintro ⟨wide⟩
      omega
  | case4 char single double =>
      have positive := char.utf8Size_pos
      exact iff_of_true rfl (.lone (by omega))
  | case5 first second rest double =>
      refine iff_of_false (by simp) ?_
      intro cuts
      cases cuts with
      | first wide => omega
      | second single wide => omega
      | later isPair cuts =>
          have single := isPair.utf8Size.1
          omega
  | case6 first second rest double single unread =>
      refine iff_of_false (by simp) ?_
      intro cuts
      cases cuts with
      | first wide => omega
      | second single' wide => exact wide single.2
      | later isPair cuts =>
          rw [IsPair, unread] at isPair
          cases isPair
  | case7 first second rest double single byte isPair inductionHypothesis =>
      constructor
      · intro panicked
        refine .later isPair (inductionHypothesis.mp ?_)
        cases isRest : pairBytes rest with
        | panics => rfl
        | returns bytes =>
            rw [isRest, Attempt.returns_bind] at panicked
            cases panicked
      · intro cuts
        cases cuts with
        | first wide => omega
        | second single' wide => exact absurd single.2 wide
        | later isPair' cuts => rw [inductionHypothesis.mpr cuts, Attempt.panics_bind]
  | case8 first second rest double cut =>
      have positive := first.utf8Size_pos
      refine iff_of_true rfl ?_
      by_cases wide : 2 < first.utf8Size
      · exact .first wide
      · have single : first.utf8Size = 1 := by omega
        exact .second single fun isSingle => cut ⟨single, isSingle⟩

/-- **What a text read in pairs spells.** -/
theorem pairBytes_eq_returns_iff (text : Text) (bytes : List Nat) :
    pairBytes text = .returns (some bytes) ↔ Spells text bytes := by
  fun_induction pairBytes text generalizing bytes with
  | case1 =>
      constructor
      · intro isEmpty
        obtain rfl : [] = bytes := by simpa using isEmpty
        exact .done
      · rintro ⟨⟩
        rfl
  | case2 char single =>
      constructor
      · intro isEmpty
        obtain rfl : [] = bytes := by simpa using isEmpty
        exact .odd single
      · rintro ⟨⟩
        rfl
  | case3 char single double =>
      refine iff_of_false (by simp) ?_
      rintro ⟨single'⟩
      exact single ‹_›
  | case4 char single double =>
      refine iff_of_false (by simp) ?_
      rintro ⟨single'⟩
      exact single ‹_›
  | case5 first second rest double =>
      refine iff_of_false (by simp) ?_
      intro spells
      cases spells with
      | pair isPair spells =>
          have single := isPair.utf8Size.1
          omega
  | case6 first second rest double single unread =>
      refine iff_of_false (by simp) ?_
      intro spells
      cases spells with
      | pair isPair spells =>
          rw [IsPair, unread] at isPair
          cases isPair
  | case7 first second rest double single byte isPair inductionHypothesis =>
      constructor
      · intro read
        cases isRest : pairBytes rest with
        | panics =>
            rw [isRest, Attempt.panics_bind] at read
            cases read
        | returns spelled =>
            cases spelled with
            | none =>
                rw [isRest, Attempt.returns_bind] at read
                cases read
            | some others =>
                rw [isRest, Attempt.returns_bind] at read
                obtain rfl : byte :: others = bytes := by simpa using read
                exact .pair isPair ((inductionHypothesis others).mp isRest)
      · intro spells
        cases spells with
        | pair isPair' spells =>
            rw [IsPair, isPair] at isPair'
            obtain rfl := Option.some.inj isPair'
            rw [(inductionHypothesis _).mpr spells, Attempt.returns_bind]
            rfl
  | case8 first second rest double cut =>
      refine iff_of_false (by simp) ?_
      intro spells
      cases spells with
      | pair isPair spells => exact cut isPair.utf8Size

theorem Spells.take {text : Text} {bytes : List Nat} (spells : Spells text bytes)
    (count : Nat) : Spells (text.take (2 * count)) (bytes.take count) := by
  induction spells generalizing count with
  | done =>
      rw [List.take_nil, List.take_nil]
      exact .done
  | odd single =>
      cases count with
      | zero => exact .done
      | succ count => exact .odd single
  | pair isPair spells inductionHypothesis =>
      cases count with
      | zero => exact .done
      | succ count => exact .pair isPair (inductionHypothesis count)

theorem Spells.drop {text : Text} {bytes : List Nat} (spells : Spells text bytes)
    (count : Nat) : Spells (text.drop (2 * count)) (bytes.drop count) := by
  induction spells generalizing count with
  | done =>
      rw [List.drop_nil, List.drop_nil]
      exact .done
  | odd single =>
      cases count with
      | zero => exact .odd single
      | succ count =>
          rw [List.drop_nil, List.drop_eq_nil_of_le (by rw [List.length_singleton]; omega)]
          exact .done
  | pair isPair spells inductionHypothesis =>
      cases count with
      | zero => exact .pair isPair spells
      | succ count => exact inductionHypothesis count

/-- Two characters for each byte, where none is left over. -/
theorem Spells.length_eq {text : Text} {bytes : List Nat} (spells : Spells text bytes)
    (even : Even text.length) : text.length = 2 * bytes.length := by
  induction spells with
  | done => rfl
  | odd single => exact absurd even Nat.not_even_one
  | pair isPair spells inductionHypothesis =>
      rw [List.length_cons, List.length_cons, List.length_cons, Nat.mul_succ,
        inductionHypothesis (by simpa [Nat.even_add_one] using even)]

/-- A text without a plus sign spells with digits alone. -/
theorem Spells.all_isHex {text : Text} {bytes : List Nat} (spells : Spells text bytes)
    (even : Even text.length) (plain : '+' ∉ text) : text.all isHex = true := by
  induction spells with
  | done => rfl
  | odd single => exact absurd even Nat.not_even_one
  | pair isPair spells inductionHypothesis =>
      rw [List.mem_cons, List.mem_cons, not_or, not_or] at plain
      have rest := inductionHypothesis (by simpa [Nat.even_add_one] using even) plain.2.2
      obtain ⟨isSecond, ⟨isFirst, _⟩ | ⟨rfl, _⟩⟩ := isPair_iff.mp isPair
      · rw [List.all_cons, List.all_cons, isFirst, isSecond, rest]
        rfl
      · exact absurd rfl plain.1

/-- Digits alone are worth what the bytes they spell are. -/
theorem Spells.hexValueFrom_eq {text : Text} {bytes : List Nat} (spells : Spells text bytes)
    (hex : text.all isHex = true) (even : Even text.length) (initial : Nat) :
    hexValueFrom initial text =
      bytes.foldl (fun value byte => value * 256 + byte) initial := by
  induction spells generalizing initial with
  | done => rfl
  | odd single => exact absurd even Nat.not_even_one
  | @pair first second rest byte bytes isPair spells inductionHypothesis =>
      rw [List.all_cons, List.all_cons, Bool.and_eq_true, Bool.and_eq_true] at hex
      have isByte : byte = hexValue [first, second] := by
        obtain ⟨_, ⟨_, isByte⟩ | ⟨rfl, _⟩⟩ := isPair_iff.mp isPair
        · exact isByte
        · rw [isHex_plus] at hex
          cases hex.1
      have shifted : hexValueFrom initial [first, second] = initial * 256 + byte := by
        rw [isByte]
        simp only [hexValue, hexValueFrom, List.foldl_cons, List.foldl_nil]
        omega
      rw [List.foldl_cons, ← shifted,
        ← inductionHypothesis hex.2.2 (by simpa [Nat.even_add_one] using even)]
      rfl

end Chain
end Datawatch
