import Mathlib.Data.List.MinMax
import Datawatch.Record.Archive

/-!
# What the record is durable to

The furthest receipt of a scope, read from segment names, and how one more segment moves it.
-/

namespace Datawatch
namespace Record

open Library Segments Wire

/-- A scope whose segments are named by receipt, as every segment of the record is. -/
def ReceiptNamed {Content : Type u} (tree : Segments.Tree Content) (root : Text) : Prop :=
  ∀ path ∈ tree, Under root path.partition → ∀ cursor ∈ Cursor.parse path.name,
    cursor.variant = .time

/-- A receipt the scope holds a segment to. -/
def DurableTo {Content : Type u} (tree : Segments.Tree Content) (root : Text)
    (micros : Int) : Prop :=
  ∃ path ∈ tree, Under root path.partition ∧ ∃ cursor ∈ Cursor.parse path.name,
    cursor.lastPosition = micros

/-- The furthest position of cursors of one variant. -/
theorem foldl_furthest {variant : Variant} {cursors : List Cursor}
    (alike : ∀ cursor ∈ cursors, cursor.variant = variant) (best : Option Int) :
    cursors.foldl
      (fun best cursor =>
        match best with
        | none => some (cursor.variant, cursor.lastPosition)
        | some (variant, position) =>
            if variant = cursor.variant then some (variant, max position cursor.lastPosition)
            else some (variant, position))
      (best.map fun position => (variant, position)) =
      (best.toList ++ cursors.map Cursor.lastPosition).max?.map fun position =>
        (variant, position) := by
  induction cursors generalizing best with
  | nil => cases best <;> simp
  | cons cursor cursors inductionHypothesis =>
      have isAlike := alike cursor List.mem_cons_self
      have later := fun other member => alike other (List.mem_cons_of_mem cursor member)
      rw [List.foldl_cons]
      cases best with
      | none =>
          have next := inductionHypothesis later (some cursor.lastPosition)
          simpa [isAlike] using next
      | some position =>
          have next := inductionHypothesis later (some (max position cursor.lastPosition))
          simp only [Option.map_some, isAlike, if_true]
          rw [Option.map_some] at next
          rw [next]
          simp only [Option.toList_some, List.singleton_append, List.map_cons,
            List.max?_cons', List.foldl_cons]

section Scope

variable {Content : Type u} {tree : Segments.Tree Content} {root : Text}

/-- The last positions of a scope's segments. -/
def positions (tree : Segments.Tree Content) (root : Text) : List Int :=
  ((tree.keys.filter fun path => Under root path.partition).filterMap fun path =>
    Cursor.parse path.name).map Cursor.lastPosition

theorem mem_positions {position : Int} :
    position ∈ positions tree root ↔ DurableTo tree root position := by
  simp only [positions, List.mem_map, List.mem_filterMap, List.mem_filter, decide_eq_true_eq,
    DurableTo]
  constructor
  · rintro ⟨cursor, ⟨path, ⟨inTree, under⟩, parsed⟩, isPosition⟩
    exact ⟨path, inTree, under, cursor, parsed, isPosition⟩
  · rintro ⟨path, inTree, under, cursor, parsed, isPosition⟩
    exact ⟨cursor, ⟨path, ⟨inTree, under⟩, parsed⟩, isPosition⟩

/-- A scope named by receipt is durable to the furthest of its segments' receipts. -/
theorem lastDurable_eq_max? (named : ReceiptNamed tree root) :
    (Segments.lastDurable tree root).map Prod.snd = (positions tree root).max? := by
  have alike : ∀ cursor ∈ (tree.keys.filter fun path => Under root path.partition).filterMap
      fun path => Cursor.parse path.name, cursor.variant = .time := by
    intro cursor member
    obtain ⟨path, inScope, parsed⟩ := List.mem_filterMap.mp member
    obtain ⟨inTree, under⟩ := List.mem_filter.mp inScope
    exact named path inTree (of_decide_eq_true under) cursor parsed
  have furthest : Segments.lastDurable tree root = _ := foldl_furthest alike none
  rw [furthest, Option.map_map]
  exact Option.map_id'

theorem lastDurable_eq_some_iff (named : ReceiptNamed tree root) {micros : Int} :
    (Segments.lastDurable tree root).map Prod.snd = some micros ↔
      DurableTo tree root micros ∧ ∀ other, DurableTo tree root other → other ≤ micros := by
  rw [lastDurable_eq_max? named, List.max?_eq_some_iff]
  simp only [mem_positions]

end Scope

/-- A payload lies under its address. -/
theorem under_display (payload : Payload) : Under payload.address.display payload.partition := by
  have split : payload.partition = payload.address.display ++
      '/' :: (("kind=".toList ++ payload.kind) ++
        '/' :: ("date=".toList ++ Calendar.dateOf payload.recvMicros)) := by
    simp [Payload.partition, partitionOf]
  unfold Under
  rw [split, components_append]
  exact List.prefix_append _ _

section Write

variable {archive : Archive} {root partition : Text} {times : List Int} {file : ArchiveFile}
  {fate : WriteFate}

/-- What a landed write adds to the names of a tree. -/
theorem mem_tree_write (landed : fate ≠ .refused) {path : Segments.Path} :
    path ∈ (archive.write partition times file fate).tree ↔
      path = ⟨partition, (archive.cursorFor times).fileName⟩ ∨ path ∈ archive.tree := by
  cases fate with
  | committed => exact AList.mem_insert _
  | unsynced => exact AList.mem_insert _
  | refused => exact absurd rfl landed

variable (nonempty : times ≠ []) (inRange : ∀ time ∈ times, i64Min ≤ time ∧ time ≤ i64Max)
  (pid : archive.pid < 2 ^ 32) (fits : archive.flushSeq + 1 < 2 ^ 64)

include nonempty inRange pid fits

/-- A write keeps a scope named by receipt. -/
theorem ReceiptNamed.write (named : ReceiptNamed archive.tree root) :
    ReceiptNamed (archive.write partition times file fate).tree root := by
  by_cases landed : fate = .refused
  · subst landed
    exact named
  · intro path inTree under cursor parsed
    rcases (mem_tree_write landed).mp inTree with rfl | before
    · rw [parse_cursorFor nonempty inRange pid fits] at parsed
      obtain rfl := Option.some.inj parsed
      rfl
    · exact named path before under cursor parsed

/-- A landed write makes its scope durable to its last receipt, and to nothing else new. -/
theorem durableTo_write (landed : fate ≠ .refused) (under : Under root partition) {last : Int}
    (isLast : times.max? = some last) {micros : Int} :
    DurableTo (archive.write partition times file fate).tree root micros ↔
      micros = last ∨ DurableTo archive.tree root micros := by
  have parses := parse_cursorFor nonempty inRange pid fits
  have position : (archive.cursorFor times).lastPosition = last := by
    rw [Archive.cursorFor, isLast]
    rfl
  unfold DurableTo
  simp only [mem_tree_write landed, or_and_right, exists_or, exists_eq_left, parses,
    Option.mem_def, Option.some.injEq, exists_eq_left', position, under, true_and]
  rw [eq_comm (a := micros)]

/-- A landed write moves the last durable receipt of its scope up to its own. -/
theorem lastDurable_write (named : ReceiptNamed archive.tree root) (landed : fate ≠ .refused)
    (under : Under root partition) {last durable : Int} (isLast : times.max? = some last)
    (isDurable : (Segments.lastDurable archive.tree root).map Prod.snd = some durable) :
    (Segments.lastDurable (archive.write partition times file fate).tree root).map Prod.snd =
      some (max durable last) := by
  obtain ⟨held, furthest⟩ := (lastDurable_eq_some_iff named).mp isDurable
  apply (lastDurable_eq_some_iff (named.write nonempty inRange pid fits)).mpr
  simp only [durableTo_write nonempty inRange pid fits landed under isLast]
  refine ⟨?_, ?_⟩
  · rcases max_choice durable last with isFirst | isSecond
    · rw [isFirst]
      exact .inr held
    · rw [isSecond]
      exact .inl rfl
  · rintro other (rfl | before)
    · exact le_max_right _ _
    · exact (furthest other before).trans (le_max_left _ _)

end Write

end Record
end Datawatch
