import Mathlib.Data.List.Pairwise
import Datawatch.Library.Text

/-!
# The hash trail

The hashes recently captured, bounded by finality.  A block names its parent's hash, so one that
follows a held block and names another hash is a reorganisation.
-/

namespace Datawatch
namespace Chain

open Library

/-- Hashes are compared without regard to the case of their letters. -/
def sameHash (first second : Text) : Bool := first.map Char.toLower = second.map Char.toLower

theorem sameHash_eq_true {first second : Text} :
    sameHash first second = true ↔ first.map Char.toLower = second.map Char.toLower :=
  decide_eq_true_iff

/-- A block, as far as the trail cares. -/
structure Seen where
  number : Nat
  hash : Text
  parentHash : Text
deriving DecidableEq

/-- A fork, with the two hashes that prove it. -/
structure Reorg where
  fromBlock : Nat
  toBlock : Nat
  oldHash : Text
  newHash : Text
deriving DecidableEq

/-- What taking a block told. -/
inductive Advance
  | extended
  | notLinked
  | reorganised (reorg : Reorg)
deriving DecidableEq

/-- The hashes held by height, newest first, and how many blocks below the tip they go. -/
structure BlockTrail where
  seen : List (Nat × Text)
  depth : Nat
  sorted : seen.Pairwise fun newer older => older.1 < newer.1

namespace BlockTrail

/-- A trail that retains at least one block. -/
def new (depth : Nat) : BlockTrail := ⟨[], max depth 1, List.Pairwise.nil⟩

/-- The highest block held. -/
def tip (trail : BlockTrail) : Option Nat := trail.seen.head?.map Prod.fst

/-- The hash held at a height. -/
def hashAt (trail : BlockTrail) (number : Nat) : Option Text :=
  (trail.seen.find? fun held => held.1 = number).map Prod.snd

/-- Keep some of the heights. -/
def retain (trail : BlockTrail) (keeps : Nat → Bool) : BlockTrail where
  seen := trail.seen.filter fun held => keeps held.1
  depth := trail.depth
  sorted := trail.sorted.filter _

/-- Hold a hash at a height. -/
def insert (trail : BlockTrail) (number : Nat) (hash : Text) : BlockTrail where
  seen := (trail.seen.filter fun held => number < held.1) ++
    (number, hash) :: trail.seen.filter fun held => held.1 < number
  depth := trail.depth
  sorted := by
    rw [List.pairwise_append]
    refine ⟨trail.sorted.filter _, List.pairwise_cons.mpr ⟨?_, trail.sorted.filter _⟩, ?_⟩
    · intro older member
      exact of_decide_eq_true (List.mem_filter.mp member).2
    · intro newer isNewer older isOlder
      have above : number < newer.1 := of_decide_eq_true (List.mem_filter.mp isNewer).2
      rcases List.mem_cons.mp isOlder with rfl | below
      · exact above
      · exact lt_trans (of_decide_eq_true (List.mem_filter.mp below).2) above

/-- Forget what lies below the depth. -/
def trim (trail : BlockTrail) : BlockTrail :=
  match trail.tip with
  | none => trail
  | some tip => trail.retain fun height => tip - trail.depth ≤ height

/-- Forget every height from one on. -/
def forgetFrom (trail : BlockTrail) (height : Nat) : BlockTrail :=
  trail.retain fun held => held < height

/-- The heights held below one, newest first, with their hashes. -/
def heldBelow (trail : BlockTrail) (height : Nat) : List (Nat × Text) :=
  trail.seen.filter fun held => held.1 < height

/-- What the held hash below a block says of it. -/
def judge (trail : BlockTrail) (block : Seen) : Advance :=
  if block.number = 0 then .notLinked
  else
    let parent := block.number - 1
    match trail.hashAt parent with
    | none => .notLinked
    | some held =>
        if sameHash held block.parentHash then .extended
        else .reorganised
          ⟨parent, max (trail.tip.getD parent) parent, held, block.parentHash⟩

/-- Take a block, and say what it told. -/
def advance (trail : BlockTrail) (block : Seen) : Advance × BlockTrail :=
  let outcome := trail.judge block
  let kept :=
    match outcome with
    | .reorganised reorg => trail.forgetFrom reorg.fromBlock
    | .extended | .notLinked => trail
  (outcome, (kept.insert block.number block.hash).trim)

variable {trail : BlockTrail} {block : Seen} {held : Nat × Text} {reorg : Reorg}

theorem mem_of_mem_retain {keeps : Nat → Bool} (member : held ∈ (trail.retain keeps).seen) :
    held ∈ trail.seen :=
  List.mem_of_mem_filter member

theorem mem_of_mem_trim (member : held ∈ trail.trim.seen) : held ∈ trail.seen := by
  unfold trim at member
  split at member
  · exact member
  · exact mem_of_mem_retain member

theorem mem_of_mem_insert {number : Nat} {hash : Text}
    (member : held ∈ (trail.insert number hash).seen) :
    held = (number, hash) ∨ held ∈ trail.seen := by
  rcases List.mem_append.mp member with above | rest
  · exact .inr (List.mem_of_mem_filter above)
  · rcases List.mem_cons.mp rest with same | below
    · exact .inl same
    · exact .inr (List.mem_of_mem_filter below)

/-- A trail holds what it held and the block it took. -/
theorem mem_of_mem_advance (member : held ∈ (trail.advance block).2.seen) :
    held = (block.number, block.hash) ∨ held ∈ trail.seen := by
  rcases mem_of_mem_insert (mem_of_mem_trim member) with same | kept
  · exact .inl same
  · right
    split at kept
    · exact mem_of_mem_retain kept
    · exact kept
    · exact kept

/-- A reorganisation is of the block below the one that proves it, where another hash was
held. -/
theorem judge_eq_reorganised (isReorg : trail.judge block = .reorganised reorg) :
    reorg.fromBlock + 1 = block.number ∧ (∃ held, (reorg.fromBlock, held) ∈ trail.seen ∧
      sameHash held block.parentHash = false) := by
  unfold judge at isReorg
  split at isReorg
  · cases isReorg
  · rename_i positive
    simp only at isReorg
    split at isReorg
    · cases isReorg
    · rename_i held isHeld
      split at isReorg
      · cases isReorg
      · rename_i different
        obtain rfl := Advance.reorganised.inj isReorg
        refine ⟨Nat.succ_pred_eq_of_ne_zero positive, held, ?_, Bool.eq_false_iff.mpr different⟩
        obtain ⟨found, isFound, rfl⟩ := Option.map_eq_some_iff.mp isHeld
        have sameHeight : found.1 = block.number - 1 := by
          simpa using List.find?_some isFound
        rw [← sameHeight]
        exact List.mem_of_find?_eq_some isFound

end BlockTrail

end Chain
end Datawatch
