import Datawatch.Library.Fields
import Datawatch.Segments.Cursor

/-!
# Segment names

A name reads back as the cursor it was written from, and nothing else a store keeps beside its
segments reads as one.
-/

namespace Datawatch
namespace Segments

open Library

/-- The file every holder of a root locks. -/
def holdFile : Text := ".compact.lock".toList

/-- A cursor as the machine holds it: every field within its width. -/
abbrev MachineCursor := { cursor : Cursor // cursor.InRange }

namespace Cursor

/-- Whether a filename is a temporary rather than a segment. -/
def isTemp (fileName : Text) : Bool := ['.'] <+: fileName ∧ writing <:+ fileName

/-- The temporary of a segment is told as one. -/
theorem isTemp_tempFileName (cursor : Cursor) : isTemp cursor.tempFileName = true := by
  rw [isTemp, decide_eq_true_eq]
  refine ⟨⟨cursor.fileName ++ writing, rfl⟩, ?_⟩
  rw [tempFileName, List.cons_append, ← List.cons_append]
  exact List.suffix_append _ _

/-- What parses begins with the tag of a variant. -/
theorem head?_of_parse_eq_some {name : Text} {cursor : Cursor}
    (parsed : parse name = some cursor) : name.head? = some cursor.tag := by
  simp only [parse, Option.bind_eq_some_iff] at parsed
  obtain ⟨stem, stripped, parts, split, matched⟩ := parsed
  rw [Text.append_of_stripSuffix_eq_some stripped, (Text.append_of_splitOnce_eq_some split).1]
  split at matched
  · rename_i isTag _
    simp only [Option.bind_eq_some_iff, Option.map_eq_some_iff] at matched
    obtain ⟨_, _, _, _, _, _, _, _, rfl⟩ := matched
    rw [isTag]
    rfl
  · rename_i isTag _
    simp only [Option.bind_eq_some_iff, Option.map_eq_some_iff] at matched
    obtain ⟨_, _, _, _, rfl⟩ := matched
    rw [isTag]
    rfl
  · rename_i isTag _
    simp only [Option.bind_eq_some_iff, Option.map_eq_some_iff] at matched
    obtain ⟨_, _, _, _, rfl⟩ := matched
    rw [isTag]
    rfl
  · contradiction

/-- No dotted name is a segment's. -/
theorem parse_dotted (name : Text) : parse ('.' :: name) = none := by
  cases parsed : parse ('.' :: name) with
  | none => rfl
  | some cursor =>
      have tagged := head?_of_parse_eq_some parsed
      cases cursor <;> simp [tag] at tagged

/-- **A segment's name reads back as its cursor, two segments share a name only where they share a
cursor, and neither a temporary nor the hold file is taken for a segment.** -/
theorem names_round_trip :
    (∀ cursor : MachineCursor, parse cursor.1.fileName = some cursor.1) ∧
      Function.Injective (fun cursor : MachineCursor => cursor.1.fileName) ∧
      (∀ cursor : MachineCursor, isTemp cursor.1.tempFileName = true) ∧
      (∀ name, isTemp name = true → parse name = none) ∧ parse holdFile = none := by
  refine ⟨fun cursor => parse_fileName cursor.2, ?_, fun cursor => isTemp_tempFileName cursor.1,
    ?_, parse_dotted _⟩
  · intro first second sameName
    exact Subtype.ext (fileName_injective first.2 second.2 sameName)
  · intro name temporary
    rw [isTemp, decide_eq_true_eq] at temporary
    obtain ⟨rest, rfl⟩ := temporary.1
    exact parse_dotted rest

end Cursor

end Segments
end Datawatch
