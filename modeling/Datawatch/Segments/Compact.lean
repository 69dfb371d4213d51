import Mathlib.Data.List.Dedup
import Mathlib.Data.Multiset.AddSub
import Datawatch.Segments.Listing

/-!
# Compaction

Many small segments into few large ones.  Write the replacement, sync it, rename
it, and then remove the originals, one at a time.  A run is modelled as its
filesystem effects in order with its result, so a crash keeps a prefix of them.
-/

namespace Datawatch
namespace Segments

open Library Library.Directory

/-- Why a compaction stopped. -/
inductive SegmentError
  /-- A partition holds two variants. -/
  | mixedCursors (first second : Variant)
  /-- A segment could not be read. -/
  | read (name : Text)
  /-- A segment's schema is not the writer's. -/
  | schema (name : Text)
deriving DecidableEq

/-- A run: its effects in order, and what it returned once all were made. -/
structure Trace (Row : Type u) (Schema : Type v) (Result : Type w) where
  effects : List (Effect Text (SegmentFile Row Schema))
  result : Except SegmentError Result

/-- The reads that fail during a run.  A name is read at most once while
duplicates are proven and at most once while segments are merged. -/
structure Faults where
  proof : Text → Bool
  merge : Text → Bool

/-- No read fails. -/
def Faults.none : Faults := ⟨fun _ => false, fun _ => false⟩

/-- The key `contained_by_range` sorts by: the widest segment starting at each
position comes first. -/
def sweepKey (entry : Cursor × Text) : Nat ×ₗ Int ×ₗ Intᵒᵈ :=
  toLex (entry.1.variant.rank,
    toLex (entry.1.firstPosition, OrderDual.toDual entry.1.lastPosition))

/-- Whether the widest segment so far contains another: strictly wider, in at
least one direction, and not the same file. -/
def Contains (widest entry : Cursor × Text) : Prop :=
  widest.1.variant = entry.1.variant ∧
    widest.1.firstPosition ≤ entry.1.firstPosition ∧
    entry.1.lastPosition ≤ widest.1.lastPosition ∧
    (widest.1.firstPosition < entry.1.firstPosition ∨
      entry.1.lastPosition < widest.1.lastPosition) ∧
    widest.2 ≠ entry.2

instance (widest entry : Cursor × Text) : Decidable (Contains widest entry) := by
  unfold Contains
  infer_instance

/-- The sweep: each segment is either contained in the widest one so far or
becomes it. -/
def sweep : Option (Cursor × Text) → Listing → List (Cursor × Text × Text)
  | _, [] => []
  | none, entry :: rest => sweep (some entry) rest
  | some widest, entry :: rest =>
      if Contains widest entry then
        (entry.1, entry.2, widest.2) :: sweep (some widest) rest
      else sweep (some entry) rest

/-- Each segment a wider one contains by range, with that container. -/
def containedByRange (listed : Listing) : List (Cursor × Text × Text) :=
  sweep none (listed.insertionSort fun first second => sweepKey first ≤ sweepKey second)

section Prove

variable {Row : Type u} {Schema : Type v} [DecidableEq Row] [DecidableEq Schema]

/-- Read one file: `none` where it is missing or the read fails. -/
def readSegment (fails : Text → Bool) (files : Partition Row Schema) (name : Text) :
    Option (SegmentFile Row Schema) :=
  if fails name then none else files.lookup name

/-- Whether a contained segment's rows have the container's schema.  A file
without rows has no batch to ask. -/
def SchemaAgrees (schema : Schema) (file : SegmentFile Row Schema) : Prop :=
  file.rows = [] ∨ file.schema = schema

instance (schema : Schema) (file : SegmentFile Row Schema) :
    Decidable (SchemaAgrees schema file) := by
  unfold SchemaAgrees
  infer_instance

/-- A receipt-time window over every contained segment, where all their names are
receipt times. -/
def window (contained : Listing) : Option (Int × Int) :=
  (contained.foldlM (fun (covered : Option (Int × Int)) (entry : Cursor × Text) =>
    match entry.1 with
    | .time lo hi _ _ =>
        some (some (match covered with
          | none => (lo, hi)
          | some (least, greatest) => (min least lo, max greatest hi)))
    | _ => none) none).join

/-- The half-open end of a window: `saturating_add(1)`. -/
def saturatingSucc (micros : Int) : Int := min (micros + 1) i64Max

/-- The rows of a container that the contained segments can overlap: a range read
over their window, or all of it. -/
def overlapRows (recvMicros : Row → Option Int) (contained : Listing)
    (file : SegmentFile Row Schema) : List Row :=
  match window contained with
  | some (lo, hi) => readRange recvMicros lo (saturatingSucc hi) file
  | none => file.rows

/-- The container's rows the contained segments can overlap, with its schema:
`none` where it cannot be read or holds no such row. -/
def heldFor (recvMicros : Row → Option Int) (faults : Faults) (files : Partition Row Schema)
    (container : Text) (contained : Listing) : Option (Schema × List Row) :=
  (readSegment faults.proof files container).bind fun file =>
    let rows := overlapRows recvMicros contained file
    if rows = [] then none else some (file.schema, rows)

/-- Prove contained segments one by one.  Each proof spends the container's
copies it relies on. -/
def spend (faults : Faults) (files : Partition Row Schema) (schema : Schema) :
    Multiset Row → Listing → List Text
  | _, [] => []
  | available, (_, name) :: rest =>
      match readSegment faults.proof files name with
      | none => spend faults files schema available rest
      | some file =>
          if SchemaAgrees schema file ∧ (file.rows : Multiset Row) ≤ available then
            name :: spend faults files schema (available - (file.rows : Multiset Row)) rest
          else spend faults files schema available rest

/-- The contained segments one container proves. -/
def provenBy (recvMicros : Row → Option Int) (faults : Faults) (files : Partition Row Schema)
    (container : Text) (contained : Listing) : List Text :=
  match heldFor recvMicros faults files container contained with
  | none => []
  | some (schema, rows) => spend faults files schema (rows : Multiset Row) contained

/-- The segments a container was found for. -/
def containedIn (pairs : List (Cursor × Text × Text)) (container : Text) : Listing :=
  (pairs.filter fun pair => pair.2.2 = container).map fun pair => (pair.1, pair.2.1)

/-- Names in path order, each once: a `BTreeSet` of paths. -/
def pathSet (names : List Text) : List Text :=
  names.dedup.insertionSort fun first second => first ≤ second

/-- Of the segments a wider one contains by range, the ones whose every row is in
that wider segment. -/
def provenDuplicates (recvMicros : Row → Option Int) (faults : Faults)
    (files : Partition Row Schema) (pairs : List (Cursor × Text × Text)) : List Text :=
  (pathSet (pairs.map fun pair => pair.2.2)).flatMap fun container =>
    provenBy recvMicros faults files container (containedIn pairs container)

/-- Segments a wider segment in the same partition already holds. -/
def superseded (recvMicros : Row → Option Int) (faults : Faults)
    (files : Partition Row Schema) (listed : Listing) : List Text :=
  provenDuplicates recvMicros faults files (containedByRange listed)

end Prove

/-- The receipt ranges among a listing's cursors. -/
def arrivals (existing : Listing) : List (Int × Int) :=
  existing.filterMap fun entry =>
    match entry.1 with
    | .time firstMicros lastMicros _ _ => some (firstMicros, lastMicros)
    | _ => none

/-- The least first position, and the greatest last one, as unsigned positions. -/
def positionSpan (existing : Listing) : Option (Nat × Nat) :=
  (existing.map fun entry => entry.1.firstPosition).min?.bind fun lo =>
    (existing.map fun entry => entry.1.lastPosition).max?.map fun hi =>
      (lo.toNat, hi.toNat)

/-- The name the replacement takes: the span of everything it holds. -/
def mergedCursor (existing : Listing) : Option Cursor :=
  match existing with
  | [] => none
  | (.time _ _ pid _, _) :: _ =>
      some (.time (((arrivals existing).map Prod.fst).foldl min i64Max)
        (((arrivals existing).map Prod.snd).foldl max i64Min) pid 0)
  | (.block _ _, _) :: _ =>
      (positionSpan existing).map fun span => .block span.1 span.2
  | (.seq _ _, _) :: _ =>
      (positionSpan existing).map fun span => .seq span.1 span.2

/-- Declared, not inherited. -/
def maxRowGroupRows : Nat := 16384

/-- Rows in row groups of at most `size`, with as many rounds as there are rows. -/
def chunks (size : Nat) : Nat → List Row → List (List Row)
  | 0, _ => []
  | rounds + 1, rows =>
      if rows = [] then [] else rows.take size :: chunks size rounds (rows.drop size)

section Merge

variable {Row : Type u} {Schema : Type v} [DecidableEq Row] [DecidableEq Schema]

/-- The file a writer leaves. -/
def writtenFile (schema : Schema) (rows : List Row) : SegmentFile Row Schema :=
  ⟨schema, chunks maxRowGroupRows rows.length rows⟩

/-- Stream the remaining inputs through a writer of one schema. -/
def streamRows (faults : Faults) (files : Partition Row Schema) (schema : Schema) :
    Listing → Except SegmentError (List Row)
  | [] => .ok []
  | (_, name) :: rest =>
      match readSegment faults.merge files name with
      | none => .error (.read name)
      | some file =>
          if SchemaAgrees schema file then
            (streamRows faults files schema rest).map fun rows => file.rows ++ rows
          else .error (.schema name)

/-- Stream every input into one replacement: its name, its file and its row count,
or nothing where the first input has no row to take a schema from. -/
def merge (faults : Faults) (files : Partition Row Schema) (existing : Listing) :
    Except SegmentError (Option (Text × SegmentFile Row Schema × Nat)) :=
  match mergedCursor existing, existing with
  | none, _ => .ok none
  | _, [] => .ok none
  | some merged, (_, firstName) :: _ =>
      match readSegment faults.merge files firstName with
      | none => .error (.read firstName)
      | some first =>
          if first.rows = [] then .ok none
          else
            (streamRows faults files first.schema existing).map fun rows =>
              some (merged.fileName, writtenFile first.schema rows, rows.length)

/-- Compact one set of a partition's segments into one.  The result is the number
of segments the set now holds and the rows written. -/
def compactSet (recvMicros : Row → Option Int) (faults : Faults) (files : Partition Row Schema)
    (listed : Listing) : Trace Row Schema (Nat × Nat) :=
  let doomed := pathSet (superseded recvMicros faults files listed)
  let existing := listed.filter fun entry => entry.2 ∉ doomed
  if existing.length ≤ 1 then ⟨removals doomed, .ok (existing.length, 0)⟩
  else
    match merge faults files existing with
    | .error error => ⟨removals doomed, .error error⟩
    | .ok none => ⟨removals doomed, .ok (existing.length, 0)⟩
    | .ok (some (newName, file, rows)) =>
        ⟨removals doomed ++ .commit newName file ::
          removals ((existing.map Prod.snd).filter fun name => name ≠ newName), .ok (1, rows)⟩

end Merge

/-- What one partition's compaction did. -/
structure Compacted where
  segmentsBefore : Nat
  segmentsAfter : Nat
  rows : Nat
deriving DecidableEq

/-- One hour, in micros. -/
def hourMicros : Int := 3600000000

/-- The closed hour a cursor's range ends in, where it is a receipt range that
ended before the cutoff. -/
def closedHour (cutoffMicros : Int) : Cursor → Option Int
  | .time _ lastMicros _ _ =>
      if lastMicros < cutoffMicros then some (lastMicros / hourMicros) else none
  | _ => none

/-- The segments of one closed hour, in listing order. -/
def inHour (cutoffMicros hour : Int) (listed : Listing) : Listing :=
  listed.filter fun entry => closedHour cutoffMicros entry.1 = some hour

/-- The closed hours of a listing, oldest first. -/
def closedHours (cutoffMicros : Int) (listed : Listing) : List Int :=
  (listed.filterMap fun entry => closedHour cutoffMicros entry.1).dedup.insertionSort (· ≤ ·)

section Run

variable {Row : Type u} {Schema : Type v} [DecidableEq Row] [DecidableEq Schema]

/-- Rewrite one partition into a single segment.  `names` is the order `readdir`
returned. -/
def compactPartition (recvMicros : Row → Option Int) (faults : Faults)
    (files : Partition Row Schema) (names : List Text) : Trace Row Schema Compacted :=
  let listed := listSegments names
  match mixedIn listed with
  | some (first, second) => ⟨[], .error (.mixedCursors first second)⟩
  | none =>
      let run := compactSet recvMicros faults files listed
      ⟨run.effects, run.result.map fun counts =>
        { segmentsBefore := listed.length
          segmentsAfter := (listSegments (applyAll run.effects files).keys).length
          rows := counts.2 }⟩

/-- The closed hours of one listing in turn, each group of more than one merged. -/
def compactHours (recvMicros : Row → Option Int) (faults : Faults) (cutoffMicros : Int)
    (listed : Listing) : List Int → Compacted → Partition Row Schema →
    Trace Row Schema Compacted
  | [], total, _ => ⟨[], .ok total⟩
  | hour :: hours, total, files =>
      let set := inHour cutoffMicros hour listed
      if set.length ≤ 1 then
        compactHours recvMicros faults cutoffMicros listed hours total files
      else
        let run := compactSet recvMicros faults files set
        match run.result with
        | .error error => ⟨run.effects, .error error⟩
        | .ok (after, rows) =>
            let rest := compactHours recvMicros faults cutoffMicros listed hours
              { segmentsBefore := total.segmentsBefore + set.length
                segmentsAfter := total.segmentsAfter + after
                rows := total.rows + rows }
              (applyAll run.effects files)
            ⟨run.effects ++ rest.effects, rest.result⟩

/-- Compact one partition's closed hours. -/
def compactClosedHours (recvMicros : Row → Option Int) (faults : Faults) (cutoffMicros : Int)
    (files : Partition Row Schema) (names : List Text) : Trace Row Schema Compacted :=
  let listed := listSegments names
  compactHours recvMicros faults cutoffMicros listed (closedHours cutoffMicros listed)
    ⟨0, 0, 0⟩ files

end Run

end Segments
end Datawatch
