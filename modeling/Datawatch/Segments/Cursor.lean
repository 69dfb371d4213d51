import Mathlib.Order.Lattice
import Mathlib.Data.Prod.Lex
import Datawatch.Library.Text

/-!
# Segment cursors

A segment's name carries the position range it covers, so a directory listing
answers what is durable without a file being opened.
-/

namespace Datawatch
namespace Segments

open Library

/-- The least `i64`. -/
def i64Min : Int := -2 ^ 63

/-- The greatest `i64`. -/
def i64Max : Int := 2 ^ 63 - 1

/-- Which kind of position a cursor carries. -/
inductive Variant
  | time
  | block
  | seq
deriving DecidableEq

/-- The order in which `Variant` is declared, which is the order listings use. -/
def Variant.rank : Variant → Nat
  | .time => 0
  | .block => 1
  | .seq => 2

theorem Variant.rank_injective : Function.Injective Variant.rank := by
  intro first second equal
  cases first <;> cases second <;> first | rfl | cases equal

/-- The position range a segment covers. -/
inductive Cursor
  /-- An arrival range on our clock, told apart by process and flush counter. -/
  | time (firstMicros lastMicros : Int) (pid seq : Nat)
  /-- A block range on a chain. -/
  | block (first last : Nat)
  /-- A stream position range. -/
  | seq (first last : Nat)
deriving DecidableEq

namespace Cursor

/-- The extension every committed segment carries. -/
def ext : Text := ".parquet".toList

/-- The suffix a segment carries while it is still being written. -/
def writing : Text := ".writing".toList

/-- The fields a name carries after its tag, in order. -/
def fields : Cursor → List Text
  | .time firstMicros lastMicros pid flush =>
      [Text.renderInt firstMicros, Text.renderInt lastMicros,
        Text.renderNat pid, Text.renderNat flush]
  | .block first last => [Text.renderNat first, Text.renderNat last]
  | .seq first last => [Text.renderNat first, Text.renderNat last]

/-- The tag of a cursor's variant. -/
def tag : Cursor → Char
  | .time .. => 't'
  | .block .. => 'b'
  | .seq .. => 's'

/-- The committed filename. -/
def fileName (cursor : Cursor) : Text :=
  cursor.tag :: '-' :: ['_'].intercalate cursor.fields ++ ext

/-- The temporary a segment is written under before it is committed. -/
def tempFileName (cursor : Cursor) : Text :=
  '.' :: cursor.fileName ++ writing

/-- Recover a cursor from a filename: `none` for anything that is not a segment name. -/
def parse (fileName : Text) : Option Cursor :=
  (Text.stripSuffix ext fileName).bind fun stem =>
    (Text.splitOnce '-' stem).bind fun parts =>
      match parts.1, parts.2.splitOn '_' with
      | ['t'], [first, last, pid, flush] =>
          (Text.parseSigned 64 first).bind fun firstMicros =>
            (Text.parseSigned 64 last).bind fun lastMicros =>
              (Text.parseUnsigned 32 pid).bind fun pid =>
                (Text.parseUnsigned 64 flush).map fun flush =>
                  .time firstMicros lastMicros pid flush
      | ['b'], [first, last] =>
          (Text.parseUnsigned 64 first).bind fun first =>
            (Text.parseUnsigned 64 last).map fun last => .block first last
      | ['s'], [first, last] =>
          (Text.parseUnsigned 64 first).bind fun first =>
            (Text.parseUnsigned 64 last).map fun last => .seq first last
      | _, _ => none

/-- The machine widths of the fields. -/
def InRange : Cursor → Prop
  | .time firstMicros lastMicros pid flush =>
      (i64Min ≤ firstMicros ∧ firstMicros ≤ i64Max) ∧
        (i64Min ≤ lastMicros ∧ lastMicros ≤ i64Max) ∧ pid < 2 ^ 32 ∧ flush < 2 ^ 64
  | .block first last => first < 2 ^ 64 ∧ last < 2 ^ 64
  | .seq first last => first < 2 ^ 64 ∧ last < 2 ^ 64

instance (cursor : Cursor) : Decidable cursor.InRange := by
  cases cursor <;> unfold InRange <;> infer_instance

/-- Which variant a cursor is. -/
def variant : Cursor → Variant
  | .time .. => .time
  | .block .. => .block
  | .seq .. => .seq

/-- The last position covered, as a number within the cursor's own variant. -/
def lastPosition : Cursor → Int
  | .time _ lastMicros _ _ => lastMicros
  | .block _ last => last
  | .seq _ last => last

/-- The first position covered, under the same rule. -/
def firstPosition : Cursor → Int
  | .time firstMicros _ _ _ => firstMicros
  | .block first _ => first
  | .seq first _ => first

/-- The start, then the flush counter where one exists. -/
def sortKey : Cursor → Int × Nat
  | .time firstMicros _ _ flush => (firstMicros, flush)
  | .block first _ => (first, 0)
  | .seq first _ => (first, 0)

/-- No field holds the separator of fields. -/
theorem not_mem_of_mem_fields {cursor : Cursor} {field : Text}
    (member : field ∈ cursor.fields) : '_' ∉ field := by
  cases cursor with
  | time firstMicros lastMicros pid flush =>
      simp only [fields, List.mem_cons, List.not_mem_nil, or_false] at member
      rcases member with rfl | rfl | rfl | rfl
      · exact Text.not_mem_renderInt firstMicros rfl (by decide)
      · exact Text.not_mem_renderInt lastMicros rfl (by decide)
      · exact Text.not_mem_renderNat pid rfl
      · exact Text.not_mem_renderNat flush rfl
  | block first last | seq first last =>
      simp only [fields, List.mem_cons, List.not_mem_nil, or_false] at member
      rcases member with rfl | rfl
      · exact Text.not_mem_renderNat first rfl
      · exact Text.not_mem_renderNat last rfl

/-- Splitting the fields of a name recovers them. -/
theorem splitOn_intercalate_fields (cursor : Cursor) :
    (['_'].intercalate cursor.fields).splitOn '_' = cursor.fields := by
  refine List.splitOn_intercalate '_' (fun field member => not_mem_of_mem_fields member) ?_
  cases cursor <;> simp [fields]

/-- Every name the code can write reads back as the cursor it was written from. -/
theorem parse_fileName {cursor : Cursor} (inRange : cursor.InRange) :
    parse cursor.fileName = some cursor := by
  have tagApart : '-' ∉ [cursor.tag] := by
    cases cursor <;> simp [tag]
  have stem : Text.stripSuffix ext cursor.fileName =
      some ([cursor.tag] ++ '-' :: ['_'].intercalate cursor.fields) :=
    Text.stripSuffix_append _ ext
  rw [parse, stem, Option.bind_some, Text.splitOnce_append_cons tagApart, Option.bind_some,
    splitOn_intercalate_fields]
  cases cursor with
  | time firstMicros lastMicros pid flush =>
      obtain ⟨⟨firstLower, firstUpper⟩, ⟨lastLower, lastUpper⟩, pidFits, flushFits⟩ := inRange
      have firstParsed : Text.parseSigned 64 (Text.renderInt firstMicros) = some firstMicros :=
        Text.parseSigned_renderInt firstLower (Int.lt_of_le_sub_one firstUpper)
      have lastParsed : Text.parseSigned 64 (Text.renderInt lastMicros) = some lastMicros :=
        Text.parseSigned_renderInt lastLower (Int.lt_of_le_sub_one lastUpper)
      simp [fields, tag, firstParsed, lastParsed, Text.parseUnsigned_renderNat pidFits,
        Text.parseUnsigned_renderNat flushFits]
  | block first last | seq first last =>
      simp [fields, tag, Text.parseUnsigned_renderNat inRange.1,
        Text.parseUnsigned_renderNat inRange.2]

/-- Two cursors in range share a name only if they are the same cursor. -/
theorem fileName_injective {first second : Cursor}
    (firstInRange : first.InRange) (secondInRange : second.InRange)
    (sameName : first.fileName = second.fileName) : first = second := by
  have parsed := parse_fileName firstInRange
  rw [sameName, parse_fileName secondInRange] at parsed
  exact (Option.some.inj parsed).symm

/-- Whatever a name reads back as is within the machine widths. -/
theorem inRange_of_parse_eq_some {name : Text} {cursor : Cursor}
    (parsed : parse name = some cursor) : cursor.InRange := by
  have signed {text : Text} {value : Int} (read : Text.parseSigned 64 text = some value) :
      i64Min ≤ value ∧ value ≤ i64Max :=
    ⟨(Text.bounds_of_parseSigned_eq_some read).1,
      Int.le_sub_one_of_lt (Text.bounds_of_parseSigned_eq_some read).2⟩
  simp only [parse, Option.bind_eq_some_iff] at parsed
  obtain ⟨stem, _, parts, _, matched⟩ := parsed
  split at matched
  · simp only [Option.bind_eq_some_iff, Option.map_eq_some_iff] at matched
    obtain ⟨firstMicros, firstRead, lastMicros, lastRead, pid, pidRead, flush, flushRead, rfl⟩ := matched
    exact ⟨signed firstRead, signed lastRead, Text.lt_of_parseUnsigned_eq_some pidRead,
      Text.lt_of_parseUnsigned_eq_some flushRead⟩
  · simp only [Option.bind_eq_some_iff, Option.map_eq_some_iff] at matched
    obtain ⟨first, firstRead, last, lastRead, rfl⟩ := matched
    exact ⟨Text.lt_of_parseUnsigned_eq_some firstRead, Text.lt_of_parseUnsigned_eq_some lastRead⟩
  · simp only [Option.bind_eq_some_iff, Option.map_eq_some_iff] at matched
    obtain ⟨first, firstRead, last, lastRead, rfl⟩ := matched
    exact ⟨Text.lt_of_parseUnsigned_eq_some firstRead, Text.lt_of_parseUnsigned_eq_some lastRead⟩
  · contradiction

/-- A temporary is never mistaken for a segment. -/
theorem parse_tempFileName (cursor : Cursor) : parse cursor.tempFileName = none := by
  have extEnds : ext.getLast? = some 't' := by decide +kernel
  have writingEnds : writing.getLast? = some 'g' := by decide +kernel
  have notSuffix : ¬ ext <:+ cursor.tempFileName := by
    rintro ⟨front, equal⟩
    have lastCharacter := congrArg List.getLast? equal
    rw [tempFileName, List.getLast?_append, List.getLast?_append, extEnds, writingEnds]
      at lastCharacter
    simp at lastCharacter
  rw [parse, Text.stripSuffix, if_neg notSuffix, Option.bind_none]

end Cursor

end Segments
end Datawatch
