import Datawatch.Library.Hex

/-!
# Text cut into fields

Text before a run of one character, padded to a width, and cut by its bytes.
-/

namespace Library
namespace Text

/-- Text without the run of a character it ends in. -/
def trimEnd (char : Char) (text : Text) : Text :=
  (text.reverse.dropWhile (· = char)).reverse

/-- How long the run of a character is that a text ends in. -/
def trailing (char : Char) (text : Text) : Nat := (text.reverse.takeWhile (· = char)).length

/-- Text in at least `width` characters, zeros after it. -/
def padRight (width : Nat) (text : Text) : Text := text ++ List.replicate (width - text.length) '0'

/-- The first bytes of a text, `none` where they end inside a character or beyond it. -/
def takeBytes : Nat → Text → Option Text
  | 0, _ => some []
  | _ + 1, [] => none
  | count + 1, char :: rest =>
      if char.utf8Size ≤ count + 1 then
        (takeBytes (count + 1 - char.utf8Size) rest).map fun taken => char :: taken
      else none

theorem append_of_splitOnce_eq_some {separator : Char} {text front back : Text}
    (split : splitOnce separator text = some (front, back)) :
    text = front ++ separator :: back ∧ separator ∉ front := by
  induction text generalizing front with
  | nil => cases split
  | cons char text inductionHypothesis =>
      rw [splitOnce] at split
      split at split
      · rename_i isSeparator
        subst isSeparator
        cases split
        exact ⟨rfl, List.not_mem_nil⟩
      · rename_i other
        obtain ⟨⟨before, after⟩, isSplit, same⟩ := Option.map_eq_some_iff.mp split
        cases same
        obtain ⟨rfl, absent⟩ := inductionHypothesis isSplit
        exact ⟨rfl, List.not_mem_cons_of_ne_of_not_mem (Ne.symm other) absent⟩

/-- No part holds the separator. -/
theorem not_mem_of_mem_splitOn {separator : Char} {text part : Text}
    (isPart : part ∈ text.splitOn separator) : separator ∉ part := by
  induction text generalizing part with
  | nil =>
      obtain rfl : part = [] := by simpa using isPart
      exact List.not_mem_nil
  | cons char text inductionHypothesis =>
      rw [List.splitOn_cons_eq_if_modifyHead] at isPart
      split at isPart
      · rcases List.mem_cons.mp isPart with rfl | isPart
        · exact List.not_mem_nil
        · exact inductionHypothesis isPart
      · rename_i other
        cases isSplit : text.splitOn separator with
        | nil => exact absurd isSplit (List.splitOn_ne_nil _ _)
        | cons first rest =>
            rw [isSplit, List.modifyHead_cons] at isPart
            rw [isSplit] at inductionHypothesis
            rcases List.mem_cons.mp isPart with rfl | isPart
            · refine List.not_mem_cons_of_ne_of_not_mem ?_
                (inductionHypothesis List.mem_cons_self)
              rintro rfl
              exact other (beq_self_eq_true _)
            · exact inductionHypothesis (List.mem_cons_of_mem _ isPart)

/-- A text is what is left of it and the run it ends in. -/
theorem eq_trimEnd_append (char : Char) (text : Text) :
    text = trimEnd char text ++ List.replicate (trailing char text) char := by
  have run : text.reverse.takeWhile (· = char) =
      List.replicate (trailing char text) char := by
    refine List.eq_replicate_iff.mpr ⟨rfl, ?_⟩
    intro other isMember
    simpa using List.mem_takeWhile_imp isMember
  have whole := congrArg List.reverse
    (List.takeWhile_append_dropWhile (p := (· = char)) (l := text.reverse))
  rw [List.reverse_append, List.reverse_reverse, run, List.reverse_replicate] at whole
  exact whole.symm

/-- A text before one character that it does not end in. -/
theorem trimEnd_concat {char : Char} {front : Text} (other : front.getLast? ≠ some char) :
    trimEnd char (front ++ [char]) = front ∧ trailing char (front ++ [char]) = 1 := by
  have stops : front.reverse.head? ≠ some char := by rwa [List.head?_reverse]
  rw [trimEnd, trailing, List.reverse_append, List.reverse_singleton, List.singleton_append,
    List.dropWhile_cons_of_pos (by simp), List.takeWhile_cons_of_pos (by simp)]
  cases isReverse : front.reverse with
  | nil => exact ⟨(List.reverse_eq_nil_iff.mp isReverse).symm, rfl⟩
  | cons last rest =>
      rw [isReverse, List.head?_cons] at stops
      have isOther : last ≠ char := by simpa using stops
      rw [List.dropWhile_cons_of_neg (by simpa using isOther),
        List.takeWhile_cons_of_neg (by simpa using isOther), ← isReverse, List.reverse_reverse]
      exact ⟨rfl, rfl⟩

/-- Characters of one byte may be cut anywhere. -/
theorem takeBytes_of_single {text : Text} (single : ∀ char ∈ text, char.utf8Size = 1) {count : Nat}
    (within : count ≤ text.length) : takeBytes count text = some (text.take count) := by
  induction text generalizing count with
  | nil =>
      obtain rfl : count = 0 := Nat.le_zero.mp within
      rfl
  | cons char text inductionHypothesis =>
      cases count with
      | zero => rfl
      | succ count =>
          rw [takeBytes, single char List.mem_cons_self, if_pos (Nat.le_add_left _ _),
            Nat.add_sub_cancel, inductionHypothesis
              (fun other isMember => single other (List.mem_cons_of_mem _ isMember))
              (Nat.le_of_succ_le_succ within)]
          rfl

end Text
end Library
