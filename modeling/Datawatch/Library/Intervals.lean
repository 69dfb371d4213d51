import Mathlib.Order.Lattice
import Mathlib.Order.MinMax

/-!
# Covering an interval

Half-open intervals over a linear order, where they cover an interval, and how far a sequence of
them reaches.
-/

namespace Library
namespace Intervals

variable {α : Type u} [LinearOrder α]

/-- Every moment of an interval lies in one of a list of intervals. -/
def Covers (intervals : List (α × α)) (start stop : α) : Prop :=
  ∀ moment, start ≤ moment → moment < stop →
    ∃ interval ∈ intervals, interval.1 ≤ moment ∧ moment < interval.2

/-- More intervals cover no less. -/
theorem Covers.append {intervals more : List (α × α)} {start stop : α}
    (covers : Covers intervals start stop) : Covers (intervals ++ more) start stop := by
  intro moment atLeast below
  obtain ⟨interval, member, inside⟩ := covers moment atLeast below
  exact ⟨interval, List.mem_append_left _ member, inside⟩

/-- How far a list of intervals reaches, from where something already reached. -/
def reached (start : α) (intervals : List (α × α)) : α :=
  intervals.foldl (fun furthest interval => max furthest interval.2) start

@[simp] theorem reached_nil (start : α) : reached start ([] : List (α × α)) = start := rfl

theorem reached_append (start : α) (first second : List (α × α)) :
    reached start (first ++ second) = reached (reached start first) second :=
  List.foldl_append

/-- A moment is short of where a list reaches exactly where it is short of the start or of an
interval's end. -/
theorem lt_reached_iff {start moment : α} {intervals : List (α × α)} :
    moment < reached start intervals ↔
      moment < start ∨ ∃ interval ∈ intervals, moment < interval.2 := by
  induction intervals generalizing start with
  | nil => simp
  | cons interval intervals inductionHypothesis =>
      change moment < reached (max start interval.2) intervals ↔ _
      rw [inductionHypothesis, lt_max_iff]
      simp only [List.mem_cons, exists_eq_or_imp, or_assoc]

theorem le_reached (start : α) (intervals : List (α × α)) : start ≤ reached start intervals := by
  apply le_of_not_gt
  intro short
  exact absurd (lt_reached_iff.mpr (.inl short)) (lt_irrefl _)

theorem le_reached_of_mem {start : α} {intervals : List (α × α)} {interval : α × α}
    (member : interval ∈ intervals) : interval.2 ≤ reached start intervals := by
  apply le_of_not_gt
  intro short
  exact absurd (lt_reached_iff.mpr (.inr ⟨interval, member, short⟩)) (lt_irrefl _)

/-- Nothing covers an interval exactly where it is empty. -/
theorem covers_nil {start stop : α} : Covers [] start stop ↔ stop ≤ start := by
  constructor
  · intro covers
    apply le_of_not_gt
    intro nonempty
    obtain ⟨_, member, _⟩ := covers start le_rfl nonempty
    cases member
  · intro empty moment atLeast below
    exact absurd (below.trans_le empty) (not_lt_of_ge atLeast)

/-- Intervals that start together, and others that start no earlier, cover an interval exactly
where the first start no later than it does and the others cover what is left of it. -/
theorem covers_append_iff {first rest : List (α × α)} {together start stop : α}
    (starts : ∀ interval ∈ first, interval.1 = together)
    (later : ∀ interval ∈ rest, together ≤ interval.1) :
    Covers (first ++ rest) start stop ↔
      min together stop ≤ start ∧ Covers rest (reached start first) stop := by
  constructor
  · intro covers
    refine ⟨?_, ?_⟩
    · rw [min_le_iff]
      by_cases empty : stop ≤ start
      · exact .inr empty
      · obtain ⟨interval, member, atLeast, _⟩ := covers start le_rfl (lt_of_not_ge empty)
        left
        rcases List.mem_append.mp member with inFirst | inRest
        · exact (starts interval inFirst).symm.le.trans atLeast
        · exact (later interval inRest).trans atLeast
    · intro moment atLeast below
      obtain ⟨interval, member, inInterval⟩ :=
        covers moment ((le_reached start first).trans atLeast) below
      rcases List.mem_append.mp member with inFirst | inRest
      · have short : moment < reached start first :=
          lt_reached_iff.mpr (.inr ⟨interval, inFirst, inInterval.2⟩)
        exact absurd short (not_lt_of_ge atLeast)
      · exact ⟨interval, inRest, inInterval⟩
  · rintro ⟨starting, covers⟩ moment atLeast below
    by_cases short : moment < reached start first
    · rcases lt_reached_iff.mp short with beforeStart | ⟨interval, inFirst, before⟩
      · exact absurd beforeStart (not_lt_of_ge atLeast)
      · refine ⟨interval, List.mem_append_left _ inFirst, ?_, before⟩
        rw [starts interval inFirst]
        rcases min_le_iff.mp starting with early | empty
        · exact early.trans atLeast
        · exact absurd (below.trans_le empty) (not_lt_of_ge atLeast)
    · obtain ⟨interval, inRest, inInterval⟩ := covers moment (le_of_not_gt short) below
      exact ⟨interval, List.mem_append_right _ inRest, inInterval⟩

end Intervals
end Library
