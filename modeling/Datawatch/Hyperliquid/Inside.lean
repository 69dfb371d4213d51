import Datawatch.Hyperliquid.Classify
import Datawatch.Library.Fields

/-!
# Payloads land inside their own subtree

A frame's partition is a venue, a kind and a day below the root, and no other row's, unless its
channel is no name of one directory.
-/

namespace Datawatch
namespace Hyperliquid

open Library Segments Wire Record Calendar
open Replay (Plain PlainAddress levels components_partitionOf)

/-- A step out of a directory. -/
def parent : Text := ['.', '.']

/-- The directory a path names: a parent reference steps out of the one before it. -/
def resolve (parts : List Text) : List Text :=
  parts.foldl (fun directory part =>
    if part = parent then directory.dropLast else directory ++ [part]) []

/-- A row of the record: a payload, or the failure of one. -/
inductive Row
  | payload (payload : Payload)
  | failure (failure : Failure)

namespace Row

def address : Row → PayloadAddress
  | payload row => row.address
  | failure row =>
      match row.account with
      | some account => .account account
      | none => .venue row.venue

def kind : Row → Text
  | payload row => row.kind
  | failure row => row.kind

def recvMicros : Row → Int
  | payload row => row.recvMicros
  | failure row => row.recvMicros

def partition : Row → Text
  | payload row => row.partition
  | failure row => row.partition

/-- Failures lie in a directory of their own below the partition. -/
def below : Row → List Text
  | payload _ => []
  | failure _ => ["failures".toList]

/-- Where a row is committed. -/
def directory (row : Row) : List Text := resolve (components row.partition ++ row.below)

/-- A row whose address and kind are names of one directory each. -/
def IsPlain (row : Row) : Prop := PlainAddress row.address ∧ Plain row.kind

theorem partition_eq (row : Row) : row.partition = partitionOf row.address row.kind row.recvMicros := by
  cases row with
  | payload row => rfl
  | failure row =>
      simp only [partition, Failure.partition, address, kind, recvMicros, venuePartitionOf]
      cases row.account with
      | none => rfl
      | some account => rfl

end Row

/-- A row a payload leads to: itself, or its failure. -/
inductive RowOf (payload : Payload) : Row → Prop
  | recorded : RowOf payload (.payload payload)
  | failed (error : Text) : RowOf payload (.failure (Ingest.failureOf payload error))

section Frames

variable {Raw : Type u} (reader : Reader Raw) (bytes : List UInt8) (recvMicros : Int)

/-- A frame's payload lands in its own subtree, and in nobody else's partition. -/
structure Inside : Prop where
  levels : components (classify reader bytes recvMicros).partition =
    ["venue=".toList ++ venueName, "kind=".toList ++ (classify reader bytes recvMicros).kind,
      "date=".toList ++ dateOf recvMicros]
  noParent : (classify reader bytes recvMicros).kind ≠ parent
  /-- Every walk of the venue's scope that descends into the kind and the day lists it. -/
  listed : ∀ (tree : ArchiveTree) (name : Text) (cursor : Cursor) (descends : Text → Bool),
    (⟨(classify reader bytes recvMicros).partition, name⟩ : Segments.Path) ∈ tree →
    Cursor.parse name = some cursor →
    descends ("kind=".toList ++ (classify reader bytes recvMicros).kind) = true →
    descends ("date=".toList ++ dateOf recvMicros) = true →
    ∃ listing, ((classify reader bytes recvMicros).partition, listing) ∈
      partitionsListedWhere tree ("venue=".toList ++ venueName) descends ∧
        (cursor, name) ∈ listing
  /-- Its rows lie below the venue's directory. -/
  within : ∀ row, RowOf (classify reader bytes recvMicros) row →
    ["venue=".toList ++ venueName] <+: row.directory
  /-- A plain row in the same directory is of the same address, kind and day. -/
  own : ∀ row other : Row, RowOf (classify reader bytes recvMicros) row → other.IsPlain →
    other.directory = row.directory →
    other.address = row.address ∧ other.kind = row.kind ∧
      dateOf other.recvMicros = dateOf row.recvMicros

/-- A frame's channel is one the table knows, or a name of one directory. -/
def NamesOneDirectory : Prop :=
  seriesOfChannel (envelopeOf reader bytes).1 ≠ none ∨
    Plain (envelopeOf reader bytes).1 ∧ (envelopeOf reader bytes).1 ≠ parent

end Frames

theorem plain_asStr (series : Series) : Plain series.asStr ∧ series.asStr ≠ parent := by
  cases series <;> decide

/-- A kind is the name of one directory where its channel is known or one itself. -/
theorem plain_kindOfChannel_iff (channel : Text) :
    Plain (kindOfChannel channel) ∧ kindOfChannel channel ≠ parent ↔
      seriesOfChannel channel ≠ none ∨ Plain channel ∧ channel ≠ parent := by
  unfold kindOfChannel
  cases seriesOfChannel channel with
  | none => exact ⟨.inr, fun plain => plain.resolve_left fun known => known rfl⟩
  | some series => exact iff_of_true (plain_asStr series) (.inl (Option.some_ne_none series))

/-- Without a parent reference a path names what it spells. -/
theorem resolve_of_plain {parts : List Text} (plain : ∀ part ∈ parts, part ≠ parent) :
    resolve parts = parts := by
  have step (before : List Text) : parts.foldl (fun directory part =>
      if part = parent then directory.dropLast else directory ++ [part]) before =
        before ++ parts := by
    induction parts generalizing before with
    | nil => exact (List.append_nil before).symm
    | cons part parts inductionHypothesis =>
        rw [List.foldl_cons, if_neg (plain part List.mem_cons_self),
          inductionHypothesis fun other isMember => plain other (List.mem_cons_of_mem _ isMember),
          List.append_assoc, List.singleton_append]
  exact step []

/-- A level under a key is no parent reference. -/
theorem level_ne_parent (key name : Text) (first : Char) (isFirst : key.head? = some first)
    (notDot : first ≠ '.') : key ++ name ≠ parent := by
  intro same
  cases key with
  | nil => cases isFirst
  | cons char key =>
      obtain rfl := Option.some.inj isFirst
      exact notDot (List.cons.inj same).1

/-- A plain row's directory is its address, its kind and its day. -/
theorem Row.directory_eq {row : Row} (plain : row.IsPlain) :
    row.directory = levels row.address ++ ["kind=".toList ++ row.kind,
      "date=".toList ++ dateOf row.recvMicros] ++ row.below := by
  rw [Row.directory, row.partition_eq, components_partitionOf plain.1 plain.2]
  refine resolve_of_plain ?_
  intro part isPart
  rw [List.mem_append, List.mem_append] at isPart
  rcases isPart with (inAddress | inRest) | inBelow
  · cases isAddress : row.address with
    | venue name =>
        rw [isAddress, levels, List.mem_singleton] at inAddress
        rw [inAddress]
        exact level_ne_parent _ _ 'v' rfl (by decide)
    | market name =>
        rw [isAddress, levels, List.mem_singleton] at inAddress
        rw [inAddress]
        exact level_ne_parent _ _ 'm' rfl (by decide)
    | account inner =>
        rw [isAddress, levels, List.mem_pair] at inAddress
        rcases inAddress with rfl | rfl
        · exact level_ne_parent _ _ 'v' rfl (by decide)
        · exact level_ne_parent _ _ 'a' rfl (by decide)
  · rw [List.mem_pair] at inRest
    rcases inRest with rfl | rfl
    · exact level_ne_parent _ _ 'k' rfl (by decide)
    · exact level_ne_parent _ _ 'd' rfl (by decide)
  · cases row with
    | payload row => cases inBelow
    | failure row =>
        rw [Row.below, List.mem_singleton] at inBelow
        rw [inBelow]
        decide

/-- **Plain rows of one directory have one address, kind and day**, where one is a venue's. -/
theorem own_of_plain {row other : Row} (plain : row.IsPlain) (isOther : other.IsPlain)
    {name : Text} (isVenue : row.address = .venue name)
    (same : other.directory = row.directory) :
    other.address = row.address ∧ other.kind = row.kind ∧
      dateOf other.recvMicros = dateOf row.recvMicros := by
  rw [Row.directory_eq plain, Row.directory_eq isOther, isVenue] at same
  cases isAddress : other.address with
  | venue otherName =>
      rw [isAddress] at same
      simp only [levels, List.cons_append, List.nil_append, List.cons.injEq,
        List.append_cancel_left_eq] at same
      obtain ⟨sameName, sameKind, sameDay, _⟩ := same
      rw [isVenue, sameName]
      exact ⟨rfl, sameKind, sameDay⟩
  | market otherName =>
      rw [isAddress] at same
      simp only [levels, List.cons_append, List.nil_append, List.cons.injEq] at same
      exact absurd same.1 (by simp)
  | account inner =>
      rw [isAddress] at same
      simp only [levels, List.cons_append, List.nil_append, List.cons.injEq] at same
      exact absurd same.2.1 (by simp)

section Frames

variable {Raw : Type u} {reader : Reader Raw} {bytes : List UInt8} {recvMicros : Int}

/-- A row of a frame's payload is of its address, kind and day. -/
theorem RowOf.fields {row : Row} (isRow : RowOf (classify reader bytes recvMicros) row) :
    row.address = .venue venueName ∧ row.kind = (classify reader bytes recvMicros).kind ∧
      row.recvMicros = recvMicros := by
  cases isRow with
  | recorded => exact ⟨rfl, rfl, rfl⟩
  | failed error => exact ⟨rfl, rfl, rfl⟩

/-- A channel that names one directory keeps its frames inside their subtree. -/
theorem inside_of_plain (plainKind : Plain (classify reader bytes recvMicros).kind)
    (noParent : (classify reader bytes recvMicros).kind ≠ parent) :
    Inside reader bytes recvMicros := by
  have plainVenue : PlainAddress (.venue venueName) := by decide
  have parts : components (classify reader bytes recvMicros).partition =
      ["venue=".toList ++ venueName, "kind=".toList ++ (classify reader bytes recvMicros).kind,
        "date=".toList ++ dateOf recvMicros] :=
    components_partitionOf plainVenue plainKind recvMicros
  have plainRow (row : Row) (isRow : RowOf (classify reader bytes recvMicros) row) :
      row.IsPlain := by
    obtain ⟨isAddress, isKind, _⟩ := isRow.fields
    rw [Row.IsPlain, isAddress, isKind]
    exact ⟨plainVenue, plainKind⟩
  have scope : components ("venue=".toList ++ venueName) = ["venue=".toList ++ venueName] := by
    decide
  refine
    { levels := parts
      noParent := noParent
      listed := ?_
      within := ?_
      own := ?_ }
  · intro tree name cursor descends inTree parsed intoKind intoDay
    have under : Under ("venue=".toList ++ venueName)
        (classify reader bytes recvMicros).partition := by
      rw [Under, scope, parts]
      exact ⟨_, rfl⟩
    obtain ⟨listing, isListed, isMember⟩ := mem_partitionsListed.mpr ⟨under, inTree, parsed⟩
    refine ⟨listing, List.mem_filter.mpr ⟨isListed, ?_⟩, isMember⟩
    simp only [scope, parts, List.length_singleton, List.drop_succ_cons, List.drop_zero,
      List.all_cons, List.all_nil, intoKind, intoDay, Bool.and_true]
  · intro row isRow
    rw [Row.directory_eq (plainRow row isRow), isRow.fields.1]
    exact ⟨_, rfl⟩
  · intro row other isRow isOther same
    exact own_of_plain (plainRow row isRow) isOther isRow.fields.1 same

/-- **A frame's payload lands in its own subtree exactly where its channel is known to the table
or names one directory.** -/
theorem inside_iff (reader : Reader Raw) (bytes : List UInt8) (recvMicros : Int) :
    Inside reader bytes recvMicros ↔ NamesOneDirectory reader bytes := by
  have condition := plain_kindOfChannel_iff (envelopeOf reader bytes).1
  constructor
  · intro inside
    refine condition.mp ⟨?_, inside.noParent⟩
    intro slash
    have isPart : "kind=".toList ++ (classify reader bytes recvMicros).kind ∈
        components (classify reader bytes recvMicros).partition := by
      rw [inside.levels]
      exact List.mem_cons_of_mem _ List.mem_cons_self
    exact Text.not_mem_of_mem_splitOn (List.mem_of_mem_filter isPart)
      (List.mem_append_right _ slash)
  · intro names
    obtain ⟨plainKind, noParent⟩ := condition.mpr names
    exact inside_of_plain plainKind noParent

end Frames

/-- A frame of no table's channel, and how it is read. -/
def slashFrame : List UInt8 := "\x7b\"channel\":\"a/b\"\x7d".toUTF8.toList

def slashReader : Reader Unit where
  peek bytes := if bytes = slashFrame then some ⟨some ['a', '/', 'b'], none⟩ else none
  symbolOf _ := none

/-- **A channel with a separator makes its own directories.**  Its partition has four
components, and it is not inside its subtree. -/
theorem slash_outside :
    components (classify slashReader slashFrame 0).partition =
        ["venue=hyperliquid".toList, "kind=a".toList, ['b'], "date=1970-01-01".toList] ∧
      ¬ Inside slashReader slashFrame 0 := by
  have parts : components (classify slashReader slashFrame 0).partition =
      ["venue=hyperliquid".toList, "kind=a".toList, ['b'], "date=1970-01-01".toList] := by
    decide +kernel
  refine ⟨parts, ?_⟩
  intro inside
  have three := congrArg List.length inside.levels
  rw [parts] at three
  cases three

end Hyperliquid
end Datawatch
