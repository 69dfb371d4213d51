import Datawatch.Segments.Superseded

/-!
# Containment by range

The sweep keeps one widest segment so far, and finds every segment whose range another strictly
contains.
-/

namespace Datawatch
namespace Segments

open Library

/-- Whether one range strictly contains another of its variant. -/
def StrictlyContains (outer inner : Cursor) : Prop :=
  outer.variant = inner.variant ∧ outer.firstPosition ≤ inner.firstPosition ∧
    inner.lastPosition ≤ outer.lastPosition ∧
    (outer.firstPosition < inner.firstPosition ∨ inner.lastPosition < outer.lastPosition)

instance (outer inner : Cursor) : Decidable (StrictlyContains outer inner) := by
  unfold StrictlyContains
  infer_instance

/-- Whether some segment of a listing strictly contains another. -/
def ContainedIn (listed : Listing) (entry : Cursor × Text) : Prop :=
  ∃ other ∈ listed, StrictlyContains other.1 entry.1

instance (listed : Listing) (entry : Cursor × Text) : Decidable (ContainedIn listed entry) := by
  unfold ContainedIn
  infer_instance

/-- Every segment is listed under the cursor its name parses to. -/
def NamedByCursor (listed : Listing) : Prop :=
  ∀ entry ∈ listed, Cursor.parse entry.2 = some entry.1

instance (listed : Listing) : Decidable (NamedByCursor listed) := by
  unfold NamedByCursor
  infer_instance

theorem StrictlyContains.irrefl (cursor : Cursor) : ¬ StrictlyContains cursor cursor := by
  rintro ⟨_, _, _, first | last⟩
  · exact lt_irrefl _ first
  · exact lt_irrefl _ last

theorem StrictlyContains.trans {outer middle inner : Cursor}
    (first : StrictlyContains outer middle) (second : StrictlyContains middle inner) :
    StrictlyContains outer inner := by
  obtain ⟨firstVariant, firstStart, firstStop, firstStrict⟩ := first
  obtain ⟨secondVariant, secondStart, secondStop, _⟩ := second
  refine ⟨firstVariant.trans secondVariant, firstStart.trans secondStart,
    secondStop.trans firstStop, ?_⟩
  omega

/-- The order the sweep takes segments in. -/
theorem sweepKey_le_iff {first second : Cursor × Text} :
    sweepKey first ≤ sweepKey second ↔
      first.1.variant.rank < second.1.variant.rank ∨
        first.1.variant = second.1.variant ∧
          (first.1.firstPosition < second.1.firstPosition ∨
            first.1.firstPosition = second.1.firstPosition ∧
              second.1.lastPosition ≤ first.1.lastPosition) := by
  rw [sweepKey, sweepKey, Prod.Lex.toLex_le_toLex, Prod.Lex.toLex_le_toLex,
    OrderDual.toDual_le_toDual, Variant.rank_injective.eq_iff]

/-- What contains a segment comes before it. -/
theorem StrictlyContains.not_le {outer inner : Cursor × Text}
    (contains : StrictlyContains outer.1 inner.1) : ¬ sweepKey inner ≤ sweepKey outer := by
  obtain ⟨variant, start, stop, strict⟩ := contains
  rw [sweepKey_le_iff, variant]
  omega

/-- Where names are their cursors', the widest so far contains a segment exactly where its range
strictly does. -/
theorem contains_iff {widest entry : Cursor × Text}
    (widestNamed : Cursor.parse widest.2 = some widest.1)
    (entryNamed : Cursor.parse entry.2 = some entry.1) :
    Contains widest entry ↔ StrictlyContains widest.1 entry.1 := by
  constructor
  · rintro ⟨variant, start, stop, strict, _⟩
    exact ⟨variant, start, stop, strict⟩
  · rintro ⟨variant, start, stop, strict⟩
    refine ⟨variant, start, stop, strict, ?_⟩
    intro sameName
    rw [sameName, entryNamed] at widestNamed
    rw [Option.some.inj widestNamed] at strict
    omega

/-- A segment the widest so far does not contain takes over what that one contains. -/
theorem StrictlyContains.handOver {widest entry later : Cursor × Text}
    (widestFirst : sweepKey widest ≤ sweepKey entry) (entryFirst : sweepKey entry ≤ sweepKey later)
    (apart : ¬ StrictlyContains widest.1 entry.1)
    (contains : StrictlyContains widest.1 later.1) : StrictlyContains entry.1 later.1 := by
  rw [sweepKey_le_iff] at widestFirst entryFirst
  obtain ⟨variant, start, stop, strict⟩ := contains
  rw [← variant] at entryFirst
  have sameVariant : widest.1.variant = entry.1.variant := by
    rcases widestFirst with less | ⟨same, _⟩
    · rcases entryFirst with greater | ⟨same, _⟩
      · exact absurd greater (Nat.lt_asymm less)
      · rw [same] at less
        exact absurd less (Nat.lt_irrefl _)
    · exact same
  unfold StrictlyContains at apart ⊢
  rw [← sameVariant]
  simp only [sameVariant, Nat.lt_irrefl, false_or, true_and] at widestFirst entryFirst apart
  refine ⟨variant, ?_⟩
  omega

section Sweep

variable {widest entry : Cursor × Text} {rest : Listing}

/-- What a contained segment contains is contained without it. -/
theorem containedIn_cons_of_contains (wider : StrictlyContains widest.1 entry.1)
    (other : Cursor × Text) :
    ContainedIn (widest :: entry :: rest) other ↔ ContainedIn (widest :: rest) other := by
  constructor
  · rintro ⟨outer, member, contains⟩
    rcases List.mem_cons.mp member with rfl | inEntries
    · exact ⟨_, List.mem_cons_self, contains⟩
    · rcases List.mem_cons.mp inEntries with rfl | inRest
      · exact ⟨widest, List.mem_cons_self, wider.trans contains⟩
      · exact ⟨outer, List.mem_cons_of_mem _ inRest, contains⟩
  · rintro ⟨outer, member, contains⟩
    refine ⟨outer, ?_, contains⟩
    rcases List.mem_cons.mp member with rfl | inRest
    · exact List.mem_cons_self
    · exact List.mem_cons_of_mem _ (List.mem_cons_of_mem _ inRest)

/-- A widest segment that does not contain the next one contains nothing that the next ones do not
contain. -/
theorem containedIn_cons_of_apart
    (sorted : (widest :: entry :: rest).Pairwise fun first second =>
      sweepKey first ≤ sweepKey second)
    (apart : ¬ StrictlyContains widest.1 entry.1) {other : Cursor × Text}
    (member : other ∈ entry :: rest) :
    ContainedIn (widest :: entry :: rest) other ↔ ContainedIn (entry :: rest) other := by
  obtain ⟨widestFirst, sortedRest⟩ := List.pairwise_cons.mp sorted
  obtain ⟨entryFirst, _⟩ := List.pairwise_cons.mp sortedRest
  constructor
  · rintro ⟨outer, isOuter, contains⟩
    rcases List.mem_cons.mp isOuter with rfl | inEntries
    · rcases List.mem_cons.mp member with rfl | inRest
      · exact absurd contains apart
      · refine ⟨entry, List.mem_cons_self, ?_⟩
        exact contains.handOver (widestFirst entry List.mem_cons_self) (entryFirst other inRest)
          apart
    · exact ⟨outer, inEntries, contains⟩
  · rintro ⟨outer, isOuter, contains⟩
    exact ⟨outer, List.mem_cons_of_mem _ isOuter, contains⟩

/-- The first segment of the sweep's order is contained in none. -/
theorem not_containedIn_head
    (sorted : (widest :: rest).Pairwise fun first second => sweepKey first ≤ sweepKey second) :
    ¬ ContainedIn (widest :: rest) widest := by
  rintro ⟨outer, member, contains⟩
  rcases List.mem_cons.mp member with rfl | inRest
  · exact StrictlyContains.irrefl _ contains
  · exact contains.not_le ((List.pairwise_cons.mp sorted).1 outer inRest)

end Sweep

section Sorted

variable {widest : Cursor × Text} {swept : Listing}

/-- A listing without its second segment is in order, and named by its cursors. -/
theorem pairwise_skip {entry : Cursor × Text} {rest : Listing}
    (sorted : (widest :: entry :: rest).Pairwise fun first second =>
      sweepKey first ≤ sweepKey second)
    (named : NamedByCursor (widest :: entry :: rest)) :
    (widest :: rest).Pairwise (fun first second => sweepKey first ≤ sweepKey second) ∧
      NamedByCursor (widest :: rest) := by
  have within : (widest :: rest).Sublist (widest :: entry :: rest) :=
    (List.sublist_cons_self entry rest).cons_cons widest
  exact ⟨sorted.sublist within, fun other member => named other (within.subset member)⟩

/-- **The sweep reports the segments that the widest so far or another swept one contains.** -/
theorem map_sweep
    (sorted : (widest :: swept).Pairwise fun first second => sweepKey first ≤ sweepKey second)
    (named : NamedByCursor (widest :: swept)) :
    (sweep (some widest) swept).map (fun pair => (pair.1, pair.2.1)) =
      swept.filter fun entry => ContainedIn (widest :: swept) entry := by
  induction swept generalizing widest with
  | nil => rfl
  | cons entry rest inductionHypothesis =>
      have sortedRest := (List.pairwise_cons.mp sorted).2
      have namedRest : NamedByCursor (entry :: rest) :=
        fun other member => named other (List.mem_cons_of_mem _ member)
      have sweeps := contains_iff (named widest List.mem_cons_self)
        (namedRest entry List.mem_cons_self)
      by_cases wider : StrictlyContains widest.1 entry.1
      · obtain ⟨sortedKept, namedKept⟩ := pairwise_skip sorted named
        have reported : ContainedIn (widest :: entry :: rest) entry :=
          ⟨widest, List.mem_cons_self, wider⟩
        rw [sweep, if_pos (sweeps.mpr wider), List.map_cons,
          inductionHypothesis sortedKept namedKept,
          List.filter_cons_of_pos (by simpa using reported)]
        congr 1
        apply List.filter_congr
        intro later _
        rw [decide_eq_decide]
        exact (containedIn_cons_of_contains wider later).symm
      · have unreported : ¬ ContainedIn (widest :: entry :: rest) entry := by
          rw [containedIn_cons_of_apart sorted wider List.mem_cons_self]
          exact not_containedIn_head sortedRest
        rw [sweep, if_neg fun contains => wider (sweeps.mp contains),
          inductionHypothesis sortedRest namedRest,
          List.filter_cons_of_neg (by simpa using unreported)]
        apply List.filter_congr
        intro later isLater
        rw [decide_eq_decide]
        exact (containedIn_cons_of_apart sorted wider (List.mem_cons_of_mem _ isLater)).symm

/-- Each container the sweep finds strictly contains its segment and is contained in none. -/
theorem container_of_mem_sweep
    (sorted : (widest :: swept).Pairwise fun first second => sweepKey first ≤ sweepKey second)
    (named : NamedByCursor (widest :: swept)) {pair : Cursor × Text × Text}
    (member : pair ∈ sweep (some widest) swept) :
    ∃ container ∈ widest :: swept, container.2 = pair.2.2 ∧
      StrictlyContains container.1 pair.1 ∧ ¬ ContainedIn (widest :: swept) container := by
  induction swept generalizing widest with
  | nil => cases member
  | cons entry rest inductionHypothesis =>
      have sortedRest := (List.pairwise_cons.mp sorted).2
      have namedRest : NamedByCursor (entry :: rest) :=
        fun other member => named other (List.mem_cons_of_mem _ member)
      have sweeps := contains_iff (named widest List.mem_cons_self)
        (namedRest entry List.mem_cons_self)
      by_cases wider : StrictlyContains widest.1 entry.1
      · rw [sweep, if_pos (sweeps.mpr wider)] at member
        rcases List.mem_cons.mp member with rfl | inSweep
        · exact ⟨widest, List.mem_cons_self, rfl, wider, not_containedIn_head sorted⟩
        · obtain ⟨sortedKept, namedKept⟩ := pairwise_skip sorted named
          obtain ⟨container, isContainer, isNamed, contains, outermost⟩ :=
            inductionHypothesis sortedKept namedKept inSweep
          refine ⟨container, ?_, isNamed, contains, ?_⟩
          · rcases List.mem_cons.mp isContainer with rfl | inRest
            · exact List.mem_cons_self
            · exact List.mem_cons_of_mem _ (List.mem_cons_of_mem _ inRest)
          · rwa [containedIn_cons_of_contains wider]
      · rw [sweep, if_neg fun contains => wider (sweeps.mp contains)] at member
        obtain ⟨container, isContainer, isNamed, contains, outermost⟩ :=
          inductionHypothesis sortedRest namedRest member
        refine ⟨container, List.mem_cons_of_mem _ isContainer, isNamed, contains, ?_⟩
        rwa [containedIn_cons_of_apart sorted wider isContainer]

end Sorted

/-- **What is reported is each segment whose range another of its variant strictly contains, once
for each time it is listed, with the name of a listed segment that contains it and is not reported
itself.** -/
theorem contained_by_range_exact {listed : Listing} (named : NamedByCursor listed) :
    ((containedByRange listed).map fun pair => (pair.1, pair.2.1)).Perm
        (listed.filter fun entry => ContainedIn listed entry) ∧
      ∀ pair ∈ containedByRange listed,
        (∃ container ∈ listed, container.2 = pair.2.2 ∧ StrictlyContains container.1 pair.1) ∧
          ∀ other ∈ containedByRange listed, other.2.1 ≠ pair.2.2 := by
  have sameMembers : (listed.insertionSort fun first second =>
      sweepKey first ≤ sweepKey second).Perm listed := List.perm_insertionSort _ _
  have sorted : (listed.insertionSort fun first second =>
      sweepKey first ≤ sweepKey second).Pairwise fun first second =>
        sweepKey first ≤ sweepKey second :=
    List.pairwise_insertionSort _ _
  have sortedNamed : NamedByCursor (listed.insertionSort fun first second =>
      sweepKey first ≤ sweepKey second) :=
    fun entry member => named entry (sameMembers.mem_iff.mp member)
  unfold containedByRange
  generalize listed.insertionSort (fun first second => sweepKey first ≤ sweepKey second) = ordered
    at sameMembers sorted sortedNamed
  have sameContained : ∀ entry, ContainedIn ordered entry ↔ ContainedIn listed entry := by
    intro entry
    simp only [ContainedIn, sameMembers.mem_iff]
  cases ordered with
  | nil =>
      obtain rfl := List.nil_perm.mp sameMembers
      exact ⟨.nil, by simp [sweep]⟩
  | cons widest swept =>
      have head := not_containedIn_head sorted
      have reports := map_sweep sorted sortedNamed
      rw [sweep]
      constructor
      · have whole : swept.filter (fun entry => ContainedIn (widest :: swept) entry) =
            (widest :: swept).filter fun entry => ContainedIn listed entry := by
          simp only [← sameContained]
          rw [List.filter_cons_of_neg (by simpa using head)]
        rw [reports, whole]
        exact sameMembers.filter _
      · intro pair member
        obtain ⟨container, isContainer, isNamed, contains, outermost⟩ :=
          container_of_mem_sweep sorted sortedNamed member
        refine ⟨⟨container, sameMembers.mem_iff.mp isContainer, isNamed, contains⟩, ?_⟩
        intro other otherMember sameName
        apply outermost
        have inFilter : (other.1, other.2.1) ∈ swept.filter fun entry =>
            ContainedIn (widest :: swept) entry := by
          rw [← reports]
          exact List.mem_map.mpr ⟨other, otherMember, rfl⟩
        obtain ⟨inSwept, isContained⟩ := List.mem_filter.mp inFilter
        have containerNamed := sortedNamed container isContainer
        have otherNamed := sortedNamed _ (List.mem_cons_of_mem _ inSwept)
        rw [isNamed, ← sameName, otherNamed] at containerNamed
        have sameCursor : other.1 = container.1 := Option.some.inj containerNamed
        obtain ⟨outer, isOuter, outerContains⟩ := of_decide_eq_true isContained
        exact ⟨outer, isOuter, sameCursor ▸ outerContains⟩

/-- Two segments of one range, and a narrower one within both. -/
def twinRanges : Listing :=
  [0, 1].map (fun flush => (.time 0 20 7 flush, (Cursor.time 0 20 7 flush).fileName)) ++
    [(.time 5 10 7 2, (Cursor.time 5 10 7 2).fileName)]

/-- Equal ranges contain neither each other nor themselves. -/
theorem contained_by_range_exact_twins :
    NamedByCursor twinRanges ∧
      ((containedByRange twinRanges).map fun pair => (pair.1, pair.2.1)).Perm
        (twinRanges.filter fun entry => ContainedIn twinRanges entry) ∧
      (twinRanges.filter fun entry => ContainedIn twinRanges entry).map Prod.fst =
        [.time 5 10 7 2] := by
  have named : NamedByCursor twinRanges := by decide +kernel
  exact ⟨named, (contained_by_range_exact named).1, by decide +kernel⟩

end Segments
end Datawatch
