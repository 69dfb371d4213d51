import Mathlib.Data.List.Induction
import Mathlib.Order.Defs.LinearOrder
import Datawatch.Library.Directory

/-!
# The latest of each key

Entries taken one at a time into a directory that keeps, of those under one key, the first of
the highest rank.
-/

namespace Library
namespace Latest

variable {Key : Type u} {Value : Type v} {Rank : Type w} [DecidableEq Key] [LinearOrder Rank]
  (rank : Value → Rank)

/-- An entry takes its key, unless a value of no lower rank is there. -/
def keep (directory : Directory Key Value) (entry : Key × Value) : Directory Key Value :=
  match directory.lookup entry.1 with
  | none => directory.insert entry.1 entry.2
  | some held => if rank held < rank entry.2 then directory.insert entry.1 entry.2 else directory

/-- Every entry in turn. -/
def keepAll (entries : List (Key × Value)) : Directory Key Value := entries.foldl (keep rank) ∅

/-- An entry leaves what other keys have. -/
theorem lookup_keep_of_ne {directory : Directory Key Value} {entry : Key × Value} {key : Key}
    (other : key ≠ entry.1) : (keep rank directory entry).lookup key = directory.lookup key := by
  unfold keep
  split
  · exact AList.lookup_insert_ne other
  · split
    · exact AList.lookup_insert_ne other
    · rfl

/-- An entry leaves its key the higher of it and what was there. -/
theorem lookup_keep_self (directory : Directory Key Value) (entry : Key × Value) :
    (keep rank directory entry).lookup entry.1 =
      some (match directory.lookup entry.1 with
        | none => entry.2
        | some held => if rank held < rank entry.2 then entry.2 else held) := by
  unfold keep
  split
  next absent => exact AList.lookup_insert _
  next held found =>
    split
    · exact AList.lookup_insert _
    · exact found

/-- What a key has after a list of entries is one of its values, and none ranks above it. -/
def IsLatest (entries : List (Key × Value)) (key : Key) (value : Value) : Prop :=
  (key, value) ∈ entries ∧ ∀ other, (key, other) ∈ entries → rank other ≤ rank value

theorem keepAll_concat (entries : List (Key × Value)) (entry : Key × Value) :
    keepAll rank (entries ++ [entry]) = keep rank (keepAll rank entries) entry := by
  rw [keepAll, List.foldl_append]
  rfl

/-- A key has nothing exactly where no entry is under it. -/
theorem lookup_keepAll_eq_none_iff {entries : List (Key × Value)} {key : Key} :
    (keepAll rank entries).lookup key = none ↔ ∀ value, (key, value) ∉ entries := by
  induction entries using List.reverseRecOn with
  | nil => exact ⟨fun _ value => List.not_mem_nil, fun _ => rfl⟩
  | append_singleton entries entry inductionHypothesis =>
      rw [keepAll_concat]
      by_cases same : key = entry.1
      · rw [same, lookup_keep_self]
        refine ⟨fun absent => absurd absent (by simp), fun absent => ?_⟩
        exact absurd (List.mem_concat_self) (absent entry.2)
      · rw [lookup_keep_of_ne rank same, inductionHypothesis]
        refine forall_congr' fun value => not_congr ?_
        rw [List.mem_append, List.mem_singleton]
        exact ⟨.inl, fun member => member.resolve_right fun isEntry =>
          same (congrArg Prod.fst isEntry)⟩

/-- What a key has is the latest of its values. -/
theorem isLatest_of_lookup_keepAll {entries : List (Key × Value)} {key : Key} {held : Value}
    (found : (keepAll rank entries).lookup key = some held) : IsLatest rank entries key held := by
  induction entries using List.reverseRecOn generalizing held with
  | nil => cases found
  | append_singleton entries entry inductionHypothesis =>
      rw [keepAll_concat] at found
      by_cases same : key = entry.1
      · rw [same, lookup_keep_self] at found
        cases before : (keepAll rank entries).lookup entry.1 with
        | none =>
            rw [before] at found
            cases found
            have fresh := (lookup_keepAll_eq_none_iff rank).mp before
            rw [same]
            refine ⟨List.mem_concat_self, fun other member => ?_⟩
            cases List.mem_append.mp member with
            | inl earlier => exact absurd earlier (fresh other)
            | inr isEntry =>
                rw [← List.mem_singleton.mp isEntry]
        | some earlierHeld =>
            have latest := inductionHypothesis (same ▸ before)
            rw [before] at found
            simp only [Option.some.injEq] at found
            split at found
            next higher =>
              cases found
              rw [same] at latest ⊢
              refine ⟨List.mem_concat_self, fun other member => ?_⟩
              cases List.mem_append.mp member with
              | inl earlier => exact (latest.2 other earlier).trans higher.le
              | inr isEntry => rw [← List.mem_singleton.mp isEntry]
            next notHigher =>
              cases found
              refine ⟨List.mem_append_left _ latest.1, fun other member => ?_⟩
              cases List.mem_append.mp member with
              | inl earlier => exact latest.2 other earlier
              | inr isEntry =>
                  have isOther := List.mem_singleton.mp isEntry
                  rw [← isOther] at notHigher
                  exact not_lt.mp notHigher
      · rw [lookup_keep_of_ne rank same] at found
        have latest := inductionHypothesis found
        refine ⟨List.mem_append_left _ latest.1, fun other member => ?_⟩
        cases List.mem_append.mp member with
        | inl earlier => exact latest.2 other earlier
        | inr isEntry => exact absurd (congrArg Prod.fst (List.mem_singleton.mp isEntry)) same

end Latest
end Library
