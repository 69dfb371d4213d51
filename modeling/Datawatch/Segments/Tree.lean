import Mathlib.Data.List.Dedup
import Datawatch.Segments.Listing

/-!
# Trees of partitions

A store's tree as the committed files under it.  A path is the partition a file lies in,
below the root, and its name there.
-/

namespace Datawatch
namespace Segments

open Library Library.Directory

/-- Where a committed file lies. -/
structure Path where
  partition : Text
  name : Text
deriving DecidableEq

/-- A store's tree. -/
abbrev Tree (Content : Type u) := Directory Path Content

/-- The components of a partition's path. -/
def components (partition : Text) : List Text :=
  (partition.splitOn '/').filter fun part => part ≠ [] ∧ part ≠ ['.']

theorem components_append (first second : Text) :
    components (first ++ '/' :: second) = components first ++ components second := by
  rw [components, List.splitOn_append_cons_self, List.filter_append]
  rfl

/-- Whether a partition lies in a subtree, matched at component boundaries. -/
def Under (root partition : Text) : Prop := components root <+: components partition

instance (root partition : Text) : Decidable (Under root partition) := by
  unfold Under
  infer_instance

variable {Content : Type u}

/-- The names in one partition. -/
def namesIn (tree : Tree Content) (partition : Text) : List Text :=
  (tree.keys.filter fun path => path.partition = partition).map Path.name

/-- Every partition of a subtree with its segments, oldest first. -/
def partitionsListed (tree : Tree Content) (root : Text) : List (Text × Listing) :=
  let partitions := (tree.keys.map Path.partition).dedup.filter fun partition =>
    Under root partition
  let ordered := partitions.insertionSort fun first second =>
    components first ≤ components second
  (ordered.map fun partition => (partition, listSegments (namesIn tree partition))).filter
    fun listed => listed.2 ≠ []

/-- The furthest position of a subtree's segments, within the first variant met. -/
def lastDurable (tree : Tree Content) (root : Text) : Option (Variant × Int) :=
  ((tree.keys.filter fun path => Under root path.partition).filterMap fun path =>
      Cursor.parse path.name).foldl
    (fun best cursor =>
      match best with
      | none => some (cursor.variant, cursor.lastPosition)
      | some (variant, position) =>
          if variant = cursor.variant then some (variant, max position cursor.lastPosition)
          else some (variant, position))
    none

/-- What becomes of one segment's write. -/
inductive WriteFate
  /-- Renamed into place and synced. -/
  | committed
  /-- Refused before its rename. -/
  | refused
  /-- Renamed into place, and reported as an error because its directory would not sync. -/
  | unsynced
deriving DecidableEq

/-- Whether the write returned its path. -/
def WriteFate.succeeds (fate : WriteFate) : Bool := fate = .committed

/-- The effects of one write.  A file that is there already, byte for byte, is left alone,
which is the same tree. -/
def WriteFate.effects (fate : WriteFate) (path : Path) (content : Content) :
    List (Effect Path Content) :=
  match fate with
  | .committed | .unsynced => [.commit path content]
  | .refused => []

theorem mem_namesIn {tree : Tree Content} {partition name : Text} :
    name ∈ namesIn tree partition ↔ (⟨partition, name⟩ : Path) ∈ tree := by
  simp only [namesIn, List.mem_map, List.mem_filter, decide_eq_true_eq]
  constructor
  · rintro ⟨⟨found, foundName⟩, ⟨member, rfl⟩, rfl⟩
    exact member
  · exact fun member => ⟨⟨partition, name⟩, ⟨member, rfl⟩, rfl⟩

/-- A partition's names are read once each. -/
theorem nodup_namesIn (tree : Tree Content) (partition : Text) :
    (namesIn tree partition).Nodup := by
  apply List.Nodup.map_on
  · intro first firstMember second secondMember same
    simp only [List.mem_filter, decide_eq_true_eq] at firstMember secondMember
    cases first
    cases second
    simp_all
  · exact tree.nodupKeys.filter _

/-- The listed segments of one partition are files of it, once each. -/
theorem nodup_paths_of_partition (tree : Tree Content) (partition : Text) :
    ((listSegments (namesIn tree partition)).map fun entry =>
      (⟨partition, entry.2⟩ : Path)).Nodup := by
  have composed : (fun entry : Cursor × Text => (⟨partition, entry.2⟩ : Path)) =
      (fun name => ⟨partition, name⟩) ∘ Prod.snd := rfl
  rw [composed, ← List.map_map]
  apply (nodup_names_listSegments (nodup_namesIn tree partition)).map
  intro first second same
  exact (Path.mk.inj same).2

/-- A listed segment is a committed file of the subtree whose name parses. -/
theorem mem_partitionsListed {tree : Tree Content} {root partition : Text} {cursor : Cursor}
    {name : Text} :
    (∃ listing, (partition, listing) ∈ partitionsListed tree root ∧ (cursor, name) ∈ listing) ↔
      Under root partition ∧ (⟨partition, name⟩ : Path) ∈ tree ∧
        Cursor.parse name = some cursor := by
  simp only [partitionsListed, List.mem_filter, List.mem_map, List.mem_insertionSort,
    List.mem_dedup, decide_eq_true_eq]
  constructor
  · rintro ⟨listing, ⟨⟨found, ⟨⟨path, inTree, rfl⟩, inScope⟩, isListed⟩, _⟩, member⟩
    obtain ⟨rfl, rfl⟩ := Prod.mk.inj isListed
    obtain ⟨isName, parsed⟩ := mem_listSegments.mp member
    exact ⟨inScope, mem_namesIn.mp isName, parsed⟩
  · rintro ⟨inScope, inTree, parsed⟩
    have member : (cursor, name) ∈ listSegments (namesIn tree partition) :=
      mem_listSegments.mpr ⟨mem_namesIn.mpr inTree, parsed⟩
    exact ⟨_, ⟨⟨partition, ⟨⟨_, inTree, rfl⟩, inScope⟩, rfl⟩, List.ne_nil_of_mem member⟩, member⟩

/-- Partitions are listed once each, with the listing of their names. -/
theorem nodup_partitionsListed (tree : Tree Content) (root : Text) :
    ((partitionsListed tree root).map Prod.fst).Nodup ∧
      ∀ listed ∈ partitionsListed tree root,
        listed.2 = listSegments (namesIn tree listed.1) := by
  constructor
  · unfold partitionsListed
    simp only
    apply (List.filter_sublist.map Prod.fst).nodup
    rw [List.map_map]
    have same : (Prod.fst ∘ fun partition : Text =>
        (partition, listSegments (namesIn tree partition))) = id := rfl
    rw [same, List.map_id, (List.perm_insertionSort _ _).nodup_iff]
    exact (List.nodup_dedup _).filter _
  · intro listed member
    obtain ⟨partition, _, rfl⟩ := List.mem_map.mp (List.mem_filter.mp member).1
    rfl

end Segments
end Datawatch
