import Mathlib.Data.List.Basic
import Datawatch.Library.Text

/-!
# Lines and quoted lists

Text written a line at a time, lists of quoted items within a line, and both read back.
-/

namespace Library
namespace Text

/-- A text as one line. -/
def line (text : Text) : Text := text ++ ['\n']

/-- The texts of the lines, one after another; what follows the last of them is there too. -/
def lines (text : Text) : List Text := text.splitOn '\n'

/-- A text without the blanks before it. -/
def trimStart (text : Text) : Text := text.dropWhile (· = ' ')

/-- Lines read back as they were written. -/
theorem lines_flatMap_line {texts : List Text} (single : ∀ text ∈ texts, '\n' ∉ text) :
    lines (texts.flatMap line) = texts ++ [[]] := by
  induction texts with
  | nil => rfl
  | cons text texts inductionHypothesis =>
      have rest := inductionHypothesis fun other member =>
        single other (List.mem_cons_of_mem _ member)
      rw [lines] at rest ⊢
      rw [List.flatMap_cons, line, List.append_assoc, List.singleton_append,
        List.splitOn_append_cons_self_of_not_mem (single text List.mem_cons_self), rest,
        List.cons_append]

/-- An item between quotes. -/
def quote (item : Text) : Text := '"' :: (item ++ ['"'])

/-- Items between quotes, a comma and a blank between one and the next. -/
def quoted (items : List Text) : Text := List.intercalate ", ".toList (items.map quote)

theorem quoted_singleton (item : Text) : quoted [item] = quote item := by
  simp [quoted]

theorem quoted_cons_cons (item next : Text) (items : List Text) :
    quoted (item :: next :: items) = quote item ++ (", ".toList ++ quoted (next :: items)) := by
  simp [quoted, List.intercalate_cons_cons]

/-- Every second of a list, its first left out. -/
def alternate : List Text → List Text
  | _ :: item :: rest => item :: alternate rest
  | _ => []

/-- What a list's first is does not matter to every second of it. -/
theorem alternate_cons_congr (first second : Text) (rest : List Text) :
    alternate (first :: rest) = alternate (second :: rest) := by
  cases rest with
  | nil => rfl
  | cons item rest => rfl

/-- The items between quotes. -/
def unquoted (text : Text) : List Text := alternate (text.splitOn '"')

theorem splitOn_quote_append {item : Text} (plain : '"' ∉ item) (rest : Text) :
    (quote item ++ rest).splitOn '"' = [] :: item :: rest.splitOn '"' := by
  have opening : quote item ++ rest = [] ++ '"' :: (item ++ '"' :: rest) := by
    simp [quote]
  rw [opening, List.splitOn_append_cons_self_of_not_mem List.not_mem_nil,
    List.splitOn_append_cons_self_of_not_mem plain]

/-- Quoted items open with a quote where there is one. -/
theorem exists_quoted_eq_cons (item : Text) (items : List Text) :
    ∃ body, quoted (item :: items) = '"' :: body := by
  cases items with
  | nil => exact ⟨_, quoted_singleton item⟩
  | cons next items => exact ⟨_, quoted_cons_cons item next items⟩

/-- What is no quote, comma or blank stands between quotes only where an item holds it. -/
theorem not_mem_quoted {char : Char} (other : char ∉ ['"', ',', ' ']) {items : List Text}
    (absent : ∀ item ∈ items, char ∉ item) : char ∉ quoted items := by
  have outside {item : Text} (without : char ∉ item) : char ∉ quote item := by
    simp only [List.mem_cons, List.not_mem_nil, or_false, not_or] at other
    simp [quote, other.1, without]
  have notBetween : char ∉ ", ".toList := by
    simp only [List.mem_cons, List.not_mem_nil, or_false, not_or] at other
    simp [other.2.1, other.2.2]
  induction items with
  | nil => exact List.not_mem_nil
  | cons item items inductionHypothesis =>
      have later := inductionHypothesis fun other member =>
        absent other (List.mem_cons_of_mem _ member)
      have isOutside := outside (absent item List.mem_cons_self)
      cases items with
      | nil =>
          rw [quoted_singleton]
          exact isOutside
      | cons next items =>
          rw [quoted_cons_cons]
          exact List.not_mem_append isOutside (List.not_mem_append notBetween later)

/-- Items without quotes read back from between them, whatever follows without one. -/
theorem unquoted_quoted_append {items : List Text} (plain : ∀ item ∈ items, '"' ∉ item)
    {rest : Text} (plainRest : '"' ∉ rest) : unquoted (quoted items ++ rest) = items := by
  induction items with
  | nil =>
      have nothing : quoted [] ++ rest = rest := rfl
      rw [nothing, unquoted, List.splitOn_eq_singleton plainRest]
      rfl
  | cons item items inductionHypothesis =>
      have later := inductionHypothesis fun other member =>
        plain other (List.mem_cons_of_mem _ member)
      have isPlain := plain item List.mem_cons_self
      rw [unquoted] at later ⊢
      cases items with
      | nil =>
          rw [quoted_singleton, splitOn_quote_append isPlain, List.splitOn_eq_singleton plainRest]
          rfl
      | cons next items =>
          obtain ⟨body, isBody⟩ := exists_quoted_eq_cons next items
          have opened : ('"' :: (body ++ rest)).splitOn '"' = [] :: (body ++ rest).splitOn '"' :=
            List.splitOn_append_cons_self_of_not_mem List.not_mem_nil _
          rw [isBody, List.cons_append, opened] at later
          -- The comma and the blank take the place of what stood before the next item's quote.
          rw [quoted_cons_cons, List.append_assoc, splitOn_quote_append isPlain, isBody,
            List.append_assoc, List.cons_append,
            List.splitOn_append_cons_self_of_not_mem (by decide), alternate,
            alternate_cons_congr _ [], later]

end Text
end Library
