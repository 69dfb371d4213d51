import Mathlib.Algebra.Order.Ring.Int
import Mathlib.Data.Finset.Card
import Mathlib.Order.Interval.Finset.Nat
import Mathlib.Data.Int.Interval

/-!
# Points a width apart

A finite set of integers no two of which are closer than a width, and how many of them an
interval of so many widths can hold.
-/

namespace Library
namespace Spaced

/-- No two points are closer than the width. -/
def Apart (width : Int) (points : Finset Int) : Prop :=
  ∀ first ∈ points, ∀ second ∈ points, first < second → first + width ≤ second

/-- The points after one, up to an end. -/
def after (points : Finset Int) (start stop : Int) : Finset Int :=
  points.filter fun point => start < point ∧ point ≤ stop

variable {width start stop : Int} {points : Finset Int} {count : Nat}

theorem mem_after {point : Int} :
    point ∈ after points start stop ↔ point ∈ points ∧ start < point ∧ point ≤ stop := by
  rw [after, Finset.mem_filter]

/-- Points lie in widths of their own. -/
theorem Apart.injOn (apart : Apart width points) (positive : 0 < width) (origin : Int) :
    Set.InjOn (fun point => (point - origin) / width) points := by
  intro first isFirst second isSecond same
  have sameWidth : (first - origin) / width = (second - origin) / width := same
  have firstBelow := Int.lt_mul_ediv_self_add (x := first - origin) positive
  have firstAbove := Int.mul_ediv_self_le (x := first - origin) positive.ne'
  have secondBelow := Int.lt_mul_ediv_self_add (x := second - origin) positive
  have secondAbove := Int.mul_ediv_self_le (x := second - origin) positive.ne'
  rw [sameWidth] at firstBelow firstAbove
  rcases lt_trichotomy first second with before | equal | before
  · have := apart first isFirst second isSecond before
    omega
  · exact equal
  · have := apart second isSecond first isFirst before
    omega

/-- The widths after a point, up to an end within so many of them. -/
theorem width_of_mem_after (apart : Apart width points) (positive : 0 < width)
    (isStart : start ∈ points) {point : Int} (member : point ∈ after points start stop) :
    1 ≤ (point - start) / width ∧ (point - start) / width * width ≤ stop - start := by
  obtain ⟨isPoint, later, within⟩ := mem_after.mp member
  have next := apart start isStart point isPoint later
  constructor
  · exact (Int.le_ediv_iff_mul_le positive).mpr (by omega)
  · have := Int.ediv_mul_le (point - start) positive.ne'
    omega

/-- Fewer points than widths follow a point within less than those widths. -/
theorem card_after_lt (apart : Apart width points) (positive : 0 < width)
    (isStart : start ∈ points) (short : stop < start + count * width) (nonzero : 0 < count) :
    (after points start stop).card < count := by
  have within : Set.MapsTo (fun point => (point - start) / width)
      (after points start stop) (Finset.Icc (1 : Int) (count - 1)) := by
    intro point member
    obtain ⟨least, most⟩ := width_of_mem_after apart positive isStart member
    simp only [Finset.coe_Icc, Set.mem_Icc]
    refine ⟨least, ?_⟩
    have below : (point - start) / width * width < count * width := by omega
    have := lt_of_mul_lt_mul_right below positive.le
    omega
  have counted := Finset.card_le_card_of_injOn _ within
    ((apart.injOn positive start).mono fun point member => (mem_after.mp member).1)
  rw [Int.card_Icc] at counted
  omega

/-- As many points as widths follow a point within those widths only where one begins each. -/
theorem card_after_lt_or_all (apart : Apart width points) (positive : 0 < width)
    (isStart : start ∈ points) :
    (after points start (start + count * width)).card < count ∨
      ∀ index ≤ count, start + (index : Int) * width ∈ points := by
  rw [or_iff_not_imp_left]
  intro full
  let widthOf := fun point : Int => (point - start) / width
  have within : Set.MapsTo widthOf (after points start (start + count * width))
      (Finset.Icc (1 : Int) count) := by
    intro point member
    obtain ⟨least, most⟩ := width_of_mem_after apart positive isStart member
    simp only [Finset.coe_Icc, Set.mem_Icc]
    refine ⟨least, ?_⟩
    have below : (point - start) / width * width ≤ count * width := by omega
    exact le_of_mul_le_mul_right below positive
  have injective : Set.InjOn widthOf (after points start (start + count * width)) :=
    (apart.injOn positive start).mono fun point member => (mem_after.mp member).1
  -- Every width holds a point.
  have onto : ∀ index : Nat, 1 ≤ index → index ≤ count →
      ∃ point ∈ after points start (start + count * width), widthOf point = index := by
    intro index least most
    have surjective := Finset.surjOn_of_injOn_of_card_le _ within injective (by
      rw [Int.card_Icc]
      omega)
    obtain ⟨point, member, isWidth⟩ := surjective
      (show (index : Int) ∈ (Finset.Icc (1 : Int) count : Set Int) by
        simp only [Finset.coe_Icc, Set.mem_Icc]
        omega)
    exact ⟨point, member, isWidth⟩
  -- From the last width down, each point begins its width.
  have begins : ∀ back : Nat, back < count →
      start + ((count - back : Nat) : Int) * width ∈ points := by
    intro back
    induction back with
    | zero =>
        intro nonzero
        obtain ⟨point, member, isWidth⟩ := onto count nonzero le_rfl
        obtain ⟨isPoint, _, most⟩ := mem_after.mp member
        have least := Int.ediv_mul_le (point - start) positive.ne'
        change widthOf point * width ≤ _ at least
        rw [isWidth] at least
        have same : point = start + (count : Int) * width := by omega
        rw [Nat.sub_zero, ← same]
        exact isPoint
    | succ back inductionHypothesis =>
        intro within
        have next := inductionHypothesis (by omega)
        obtain ⟨point, member, isWidth⟩ := onto (count - (back + 1)) (by omega) (by omega)
        obtain ⟨isPoint, _, _⟩ := mem_after.mp member
        have least := Int.ediv_mul_le (point - start) positive.ne'
        have most := Int.lt_ediv_add_one_mul_self (point - start) positive
        change widthOf point * width ≤ _ at least
        change _ < (widthOf point + 1) * width at most
        rw [isWidth] at least most
        have one : ((count - (back + 1) : Nat) : Int) + 1 = ((count - back : Nat) : Int) := by
          omega
        rw [one] at most
        have spaced := apart point isPoint _ next (by omega)
        have split : ((count - back : Nat) : Int) * width =
            ((count - (back + 1) : Nat) : Int) * width + width := by
          rw [← one, add_mul, one_mul]
        have same : point = start + ((count - (back + 1) : Nat) : Int) * width := by omega
        rw [← same]
        exact isPoint
  intro index most
  rcases Nat.eq_zero_or_pos index with rfl | nonzero
  · simpa using isStart
  · have isBack := begins (count - index) (by omega)
    rwa [show count - (count - index) = index by omega] at isBack

/-- Where a point begins each width, as many follow the first as there are widths. -/
theorem card_after_of_all (positive : 0 < width)
    (all : ∀ index ≤ count, start + (index : Int) * width ∈ points) :
    count ≤ (after points start (start + count * width)).card := by
  have injective : Set.InjOn (fun index : Nat => start + (index : Int) * width)
      (Finset.Icc 1 count) := by
    intro first _ second _ same
    have sameWidths : (first : Int) * width = (second : Int) * width := by
      have : start + (first : Int) * width = start + (second : Int) * width := same
      omega
    exact_mod_cast mul_right_cancel₀ positive.ne' sameWidths
  have counted := Finset.card_le_card_of_injOn
    (fun index : Nat => start + (index : Int) * width)
    (s := Finset.Icc 1 count) (t := after points start (start + count * width)) ?_ injective
  · simpa using counted
  · intro index member
    simp only [Finset.coe_Icc, Set.mem_Icc] at member
    apply mem_after.mpr ⟨all index member.2, ?_, ?_⟩
    · have : 0 < (index : Int) * width := mul_pos (by omega) positive
      omega
    · have : (index : Int) * width ≤ count * width :=
        mul_le_mul_of_nonneg_right (by omega) positive.le
      omega

end Spaced
end Library
