import Datawatch.Segments.Keeps

/-!
# When everything contained is proven

A segment that strictly spans every other one of a set is the only container the
sweep finds, and where it holds all their rows each of them is proven.
-/

namespace Datawatch
namespace Segments

open Library Library.Directory

/-- A widest segment that contains everything swept is the container of all of it. -/
theorem sweep_of_forall_contains {widest : Cursor × Text} {swept : Listing}
    (contains : ∀ entry ∈ swept, Contains widest entry) :
    sweep (some widest) swept = swept.map fun entry => (entry.1, entry.2, widest.2) := by
  induction swept with
  | nil => rfl
  | cons entry rest inductionHypothesis =>
      simp only [sweep, if_pos (contains entry List.mem_cons_self), List.map_cons]
      rw [inductionHypothesis fun other member => contains other (List.mem_cons_of_mem _ member)]

/-- What contains a segment is swept before it. -/
theorem sweepKey_lt_of_contains {widest entry : Cursor × Text} (contains : Contains widest entry) :
    sweepKey widest < sweepKey entry := by
  obtain ⟨sameVariant, startsBefore, endsAfter, strict, _⟩ := contains
  simp only [sweepKey, Prod.Lex.toLex_lt_toLex, OrderDual.toDual_lt_toDual, sameVariant,
    lt_irrefl, true_and, false_or]
  rcases strict with startsEarlier | endsLater
  · exact .inl startsEarlier
  · rcases startsBefore.lt_or_eq with startsEarlier | startsWith
    · exact .inl startsEarlier
    · exact .inr ⟨startsWith, endsLater⟩

/-- Sorting for the sweep puts a segment that contains all others first. -/
theorem exists_insertionSort_eq_cons {listed : Listing} {widest : Cursor × Text}
    (distinct : (listed.map Prod.snd).Nodup) (member : widest ∈ listed)
    (contains : ∀ entry ∈ listed, entry.2 ≠ widest.2 → Contains widest entry) :
    ∃ others, (listed.insertionSort fun first second => sweepKey first ≤ sweepKey second) =
        widest :: others ∧ (widest :: others).Perm listed ∧
          ∀ entry ∈ others, Contains widest entry := by
  set sorted := listed.insertionSort fun first second => sweepKey first ≤ sweepKey second
    with sorted_eq
  have perm : sorted.Perm listed := List.perm_insertionSort _ _
  have ordered : sorted.Pairwise fun first second => sweepKey first ≤ sweepKey second :=
    haveI : Std.Total fun first second : Cursor × Text => sweepKey first ≤ sweepKey second :=
      ⟨fun _ _ => le_total _ _⟩
    haveI : IsTrans (Cursor × Text) fun first second => sweepKey first ≤ sweepKey second :=
      ⟨fun _ _ _ => le_trans⟩
    List.pairwise_insertionSort _ _
  have sortedDistinct : (sorted.map Prod.snd).Nodup := (perm.map Prod.snd).nodup_iff.mpr distinct
  clear_value sorted
  cases sorted with
  | nil => exact absurd (perm.mem_iff.mpr member) List.not_mem_nil
  | cons head rest =>
      have isHead : head = widest := by
        by_contra different
        have inRest : widest ∈ rest :=
          (List.mem_cons.mp (perm.mem_iff.mpr member)).resolve_left (Ne.symm different)
        have apart : head.2 ≠ widest.2 := fun same =>
          (List.nodup_cons.mp sortedDistinct).1 (same ▸ List.mem_map_of_mem inRest)
        have before := sweepKey_lt_of_contains
          (contains head (perm.subset List.mem_cons_self) apart)
        exact absurd ((List.pairwise_cons.mp ordered).1 widest inRest) (not_le.mpr before)
      subst isHead
      refine ⟨rest, rfl, perm, fun entry inRest => ?_⟩
      refine contains entry (perm.subset (List.mem_cons_of_mem _ inRest)) fun same => ?_
      exact (List.nodup_cons.mp sortedDistinct).1 (same ▸ List.mem_map_of_mem inRest)

/-- The window's fold covers what it has seen, and ends where some range does. -/
theorem window_fold_spec {contained : Listing} {covered : Option (Int × Int)} {lo hi : Int}
    (folded : contained.foldlM (fun (covered : Option (Int × Int)) (entry : Cursor × Text) =>
      match entry.1 with
      | .time lo hi _ _ =>
          some (some (match covered with
            | none => (lo, hi)
            | some (least, greatest) => (min least lo, max greatest hi)))
      | _ => none) covered = some (some (lo, hi))) :
    (∀ range ∈ covered, lo ≤ range.1 ∧ range.2 ≤ hi) ∧
      (∀ entry ∈ contained, entry.1.variant = .time ∧ lo ≤ entry.1.firstPosition ∧
        entry.1.lastPosition ≤ hi) ∧
      ((∃ range ∈ covered, range.2 = hi) ∨ ∃ entry ∈ contained, entry.1.lastPosition = hi) := by
  induction contained generalizing covered with
  | nil =>
      obtain rfl : covered = some (lo, hi) := Option.some.inj folded
      simp
  | cons entry rest inductionHypothesis =>
      obtain ⟨cursor, name⟩ := entry
      cases cursor with
      | block | seq => cases folded
      | time firstMicros lastMicros pid flush =>
          obtain ⟨covers, coversRest, reached⟩ := inductionHypothesis folded
          have here := covers _ rfl
          refine ⟨?_, ?_, ?_⟩
          · rintro range isCovered
            obtain rfl : covered = some range := isCovered
            simp only at here
            omega
          · intro other member
            rcases List.mem_cons.mp member with rfl | inRest
            · refine ⟨rfl, ?_⟩
              simp only [Cursor.firstPosition, Cursor.lastPosition]
              cases covered with
              | none => exact here
              | some range =>
                  simp only at here
                  omega
            · exact coversRest other inRest
          · rcases reached with ⟨range, isRange, ends⟩ | ⟨other, inRest, ends⟩
            · obtain rfl := Option.some.inj isRange
              cases covered with
              | none => exact .inr ⟨_, List.mem_cons_self, ends⟩
              | some before =>
                  simp only at ends
                  rcases max_choice before.2 lastMicros with earlier | now
                  · exact .inl ⟨before, rfl, earlier ▸ ends⟩
                  · exact .inr ⟨_, List.mem_cons_self, now ▸ ends⟩
            · exact .inr ⟨other, List.mem_cons_of_mem _ inRest, ends⟩

/-- A window spans receipt ranges only, each of them, and ends with one. -/
theorem window_spec {contained : Listing} {lo hi : Int}
    (isWindow : window contained = some (lo, hi)) :
    (∀ entry ∈ contained, entry.1.variant = .time ∧ lo ≤ entry.1.firstPosition ∧
      entry.1.lastPosition ≤ hi) ∧ ∃ entry ∈ contained, entry.1.lastPosition = hi := by
  obtain ⟨_, spans, reached⟩ := window_fold_spec (Option.join_eq_some_iff.mp isWindow)
  exact ⟨spans, by simpa using reached⟩

variable {Row : Type u} {Schema : Type v}

/-- A row lying within the range a name carries: where the name is a receipt range, at
a receipt time of that range. -/
def InNamedRange (recvMicros : Row → Option Int) (cursor : Cursor) (row : Row) : Prop :=
  cursor.variant = .time →
    ∀ time ∈ recvMicros row, cursor.firstPosition ≤ time ∧ time ≤ cursor.lastPosition

variable [DecidableEq Row]

/-- A container read for its contained segments holds as many copies of each of their
rows as it holds at all. -/
theorem count_overlapRows {recvMicros : Row → Option Int} {contained : Listing}
    (belowMax : ∀ entry ∈ contained, entry.1.variant = .time → entry.1.lastPosition < i64Max)
    {entry : Cursor × Text} (member : entry ∈ contained) {row : Row}
    (inRange : InNamedRange recvMicros entry.1 row) (file : SegmentFile Row Schema) :
    (overlapRows recvMicros contained file).count row = file.rows.count row := by
  unfold overlapRows
  split
  · rename_i lo hi isWindow
    obtain ⟨spans, last, lastMember, ends⟩ := window_spec isWindow
    have covers := spans entry member
    have below := belowMax last lastMember (spans last lastMember).1
    refine count_readRange (fun time isTime => ?_) file
    have bounds := inRange covers.1 time isTime
    simp only [saturatingSucc]
    omega
  · rfl

variable [DecidableEq Schema]

/-- With every read succeeding and every schema agreeing, a container that holds all the
contained rows proves every contained segment. -/
theorem spend_eq_all {files : Partition Row Schema} {schema : Schema} {available : Multiset Row}
    {contained : Listing}
    (readable : ∀ entry ∈ contained,
      ∃ file, files.lookup entry.2 = some file ∧ SchemaAgrees schema file)
    (enough : ((contained.map Prod.snd).map (held fileRows files)).sum ≤ available) :
    spend .none files schema available contained = contained.map Prod.snd := by
  induction contained generalizing available with
  | nil => rfl
  | cons entry rest inductionHypothesis =>
      obtain ⟨cursor, name⟩ := entry
      obtain ⟨file, found, agrees⟩ := readable _ List.mem_cons_self
      have share : held fileRows files name = (file.rows : Multiset Row) := by
        simp [held, found, fileRows]
      rw [List.map_cons, List.map_cons, List.sum_cons, share] at enough
      have mine : (file.rows : Multiset Row) ≤ available :=
        (Multiset.le_add_right _ _).trans enough
      have others : ((rest.map Prod.snd).map (held fileRows files)).sum ≤
          available - (file.rows : Multiset Row) :=
        le_tsub_of_add_le_left enough
      have read : readSegment Faults.none.proof files name = some file := found
      simp only [spend, read, if_pos (And.intro agrees mine), List.map_cons]
      rw [inductionHypothesis (fun other member => readable other (List.mem_cons_of_mem _ member))
        others]

end Segments
end Datawatch
