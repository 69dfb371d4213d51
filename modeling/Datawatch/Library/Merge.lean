import Mathlib.Data.List.Perm.Basic

/-!
# A lazy merge of queues

Queues are merged by always taking the item of least key at the head of one.  A queue is
opened only when the least item held no longer waits before it, and opening one may fail.
-/

namespace Library
namespace Merge

variable {Item : Type u} {Source : Type v} {Error : Type w}

/-- The head of least key, the first of two that tie, and the queues without it. -/
def popLeast (before : Item → Item → Bool) :
    List (List Item) → Option (Item × List (List Item))
  | [] => none
  | [] :: queues => (popLeast before queues).map fun found => (found.1, [] :: found.2)
  | (item :: queue) :: queues =>
      match popLeast before queues with
      | none => some (item, queue :: queues)
      | some (other, rest) =>
          if before item other then some (item, queue :: queues)
          else some (other, (item :: queue) :: rest)

/-- Open sources, in their order, while the least item held does not wait before the next. -/
def fill (before : Item → Item → Bool) (opens : Source → Except Error (List Item))
    (waits : Item → Source → Bool) :
    List Source → List (List Item) → Except Error (List Source × List (List Item))
  | [], held => .ok ([], held)
  | next :: sources, held =>
      if (popLeast before held).any fun least => waits least.1 next then
        .ok (next :: sources, held)
      else
        (opens next).bind fun queue => fill before opens waits sources (held ++ [queue])

/-- The merge, at most `fuel` items of it, with the error that ended it. -/
def drain (before : Item → Item → Bool) (opens : Source → Except Error (List Item))
    (waits : Item → Source → Bool) :
    Nat → List Source → List (List Item) → List Item × Option Error
  | 0, _, _ => ([], none)
  | fuel + 1, sources, held =>
      match fill before opens waits sources held with
      | .error reason => ([], some reason)
      | .ok (sources, held) =>
          match popLeast before held with
          | none => ([], none)
          | some (item, held) =>
              let rest := drain before opens waits fuel sources held
              (item :: rest.1, rest.2)

/-- What a source holds, nothing where it will not open. -/
def itemsOf (opens : Source → Except Error (List Item)) (source : Source) : List Item :=
  (opens source).toOption.getD []

variable {before : Item → Item → Bool} {opens : Source → Except Error (List Item)}
  {waits : Item → Source → Bool}

theorem popLeast_eq_none {queues : List (List Item)} (exhausted : popLeast before queues = none) :
    queues.flatten = [] := by
  induction queues with
  | nil => rfl
  | cons queue queues inductionHypothesis =>
      cases queue with
      | nil =>
          simp only [popLeast, Option.map_eq_none_iff] at exhausted
          simpa using inductionHypothesis exhausted
      | cons item queue =>
          simp only [popLeast] at exhausted
          split at exhausted
          · cases exhausted
          · split at exhausted <;> cases exhausted

/-- Taking the least item leaves the others. -/
theorem perm_of_popLeast {queues rest : List (List Item)} {item : Item}
    (popped : popLeast before queues = some (item, rest)) :
    queues.flatten.Perm (item :: rest.flatten) := by
  induction queues generalizing item rest with
  | nil => cases popped
  | cons queue queues inductionHypothesis =>
      cases queue with
      | nil =>
          simp only [popLeast, Option.map_eq_some_iff, Prod.mk.injEq] at popped
          obtain ⟨⟨other, others⟩, found, rfl, rfl⟩ := popped
          simpa using inductionHypothesis found
      | cons head queue =>
          simp only [popLeast] at popped
          split at popped
          · cases popped
            exact .refl _
          · rename_i other others found
            split at popped
            · cases popped
              exact .refl _
            · cases popped
              simp only [List.flatten_cons, List.cons_append]
              exact (((inductionHypothesis found).append_left (head :: queue)).trans
                List.perm_middle)

/-- Filling opens a front part of the sources and holds what they hold. -/
theorem fill_spec {sources left : List Source} {held filled : List (List Item)}
    (opened : fill before opens waits sources held = .ok (left, filled)) :
    (∃ front, sources = front ++ left ∧ filled = held ++ front.map (itemsOf opens) ∧
        ∀ source ∈ front, ∃ items, opens source = .ok items) ∧
      (left = [] ∨ popLeast before filled ≠ none) := by
  induction sources generalizing held with
  | nil =>
      simp only [fill, Except.ok.injEq, Prod.mk.injEq] at opened
      obtain ⟨rfl, rfl⟩ := opened
      exact ⟨⟨[], rfl, by simp, by simp⟩, .inl rfl⟩
  | cons next sources inductionHypothesis =>
      unfold fill at opened
      split at opened
      · rename_i waiting
        simp only [Except.ok.injEq, Prod.mk.injEq] at opened
        obtain ⟨rfl, rfl⟩ := opened
        refine ⟨⟨[], rfl, by simp, by simp⟩, .inr fun none => ?_⟩
        simp [none] at waiting
      · cases queue : opens next with
        | error reason => simp [queue, Except.bind] at opened
        | ok items =>
            simp only [queue, Except.bind] at opened
            obtain ⟨⟨front, rfl, rfl, opens⟩, ended⟩ := inductionHypothesis opened
            refine ⟨⟨next :: front, rfl, by simp [itemsOf, queue, Except.toOption], ?_⟩, ended⟩
            intro source member
            rcases List.mem_cons.mp member with rfl | inFront
            · exact ⟨items, queue⟩
            · exact opens source inFront

/-- **A merge that met no error holds every item of every source once.** -/
theorem perm_of_drain {fuel : Nat} {sources : List Source} {held : List (List Item)}
    {items : List Item}
    (enough : held.flatten.length + (sources.flatMap (itemsOf opens)).length < fuel)
    (drained : drain before opens waits fuel sources held = (items, none)) :
    items.Perm (held.flatten ++ sources.flatMap (itemsOf opens)) := by
  induction fuel generalizing sources held items with
  | zero => omega
  | succ fuel inductionHypothesis =>
      unfold drain at drained
      split at drained
      · simp at drained
      · rename_i left filled opened
        obtain ⟨⟨front, rfl, rfl, _⟩, ended⟩ := fill_spec opened
        have whole : held.flatten ++ (front ++ left).flatMap (itemsOf opens) =
            (held ++ front.map (itemsOf opens)).flatten ++ left.flatMap (itemsOf opens) := by
          simp [List.flatMap_def]
        rw [whole]
        split at drained
        · rename_i exhausted
          rcases ended with rfl | notExhausted
          · obtain rfl : [] = items := (Prod.mk.inj drained).1
            simp [popLeast_eq_none exhausted]
          · exact absurd exhausted notExhausted
        · rename_i item rest popped
          have taken := perm_of_popLeast popped
          obtain ⟨isItems, noError⟩ := Prod.mk.inj drained
          have counted := taken.length_eq
          have total := congrArg List.length whole
          simp only [List.length_append, List.length_cons] at counted total
          have drainedRest : drain before opens waits fuel left rest =
              ((drain before opens waits fuel left rest).1, none) := Prod.ext rfl noError
          have remaining := inductionHypothesis (by omega) drainedRest
          rw [← isItems]
          exact (remaining.cons item).trans (taken.symm.append_right _)

/-- A merge that met no error opened every source. -/
theorem opens_of_drain {fuel : Nat} {sources : List Source} {held : List (List Item)}
    {items : List Item}
    (enough : held.flatten.length + (sources.flatMap (itemsOf opens)).length < fuel)
    (drained : drain before opens waits fuel sources held = (items, none)) :
    ∀ source ∈ sources, ∃ items, opens source = .ok items := by
  induction fuel generalizing sources held items with
  | zero => omega
  | succ fuel inductionHypothesis =>
      unfold drain at drained
      split at drained
      · simp at drained
      · rename_i left filled opened
        obtain ⟨⟨front, rfl, rfl, frontOpens⟩, ended⟩ := fill_spec opened
        intro source member
        rcases List.mem_append.mp member with inFront | inLeft
        · exact frontOpens source inFront
        · split at drained
          · rename_i exhausted
            rcases ended with rfl | notExhausted
            · cases inLeft
            · exact absurd exhausted notExhausted
          · rename_i item rest popped
            have counted := (perm_of_popLeast popped).length_eq
            simp only [List.flatten_append, List.length_append, List.length_cons,
              List.flatMap_append, ← List.flatMap_def] at counted enough
            have drainedRest : drain before opens waits fuel left rest =
                ((drain before opens waits fuel left rest).1, none) :=
              Prod.ext rfl (Prod.mk.inj drained).2
            exact inductionHypothesis (by omega) drainedRest source inLeft

/-- Filling stops before a source only where the least item held waits before it. -/
theorem waits_of_fill {sources left : List Source} {held filled : List (List Item)}
    (opened : fill before opens waits sources held = .ok (left, filled))
    {next : Source} {others : List Source} (stopped : left = next :: others) :
    ∃ least, popLeast before filled = some least ∧ waits least.1 next = true := by
  induction sources generalizing held with
  | nil =>
      simp only [fill, Except.ok.injEq, Prod.mk.injEq] at opened
      rw [← opened.1] at stopped
      cases stopped
  | cons source sources inductionHypothesis =>
      unfold fill at opened
      split at opened
      · rename_i waiting
        simp only [Except.ok.injEq, Prod.mk.injEq] at opened
        rw [← opened.1] at stopped
        rw [← (List.cons.inj stopped).1, ← opened.2]
        simpa only [Option.any_eq_true] using waiting
      · cases queue : opens source with
        | error reason => simp [queue, Except.bind] at opened
        | ok items =>
            simp only [queue, Except.bind] at opened
            exact inductionHypothesis opened

section Ordered

variable (total : ∀ first second, before first second = true ∨ before second first = true)
  (trans : ∀ {first second third}, before first second = true → before second third = true →
    before first third = true)

include total in
theorem refl_of_total (item : Item) : before item item = true := (total item item).elim id id

include total trans in
/-- The item taken comes before every item held, where each queue is in order. -/
theorem before_of_popLeast {queues rest : List (List Item)} {item : Item}
    (popped : popLeast before queues = some (item, rest))
    (sorted : ∀ queue ∈ queues, queue.Pairwise fun first second => before first second = true) :
    ∀ other ∈ queues.flatten, before item other = true := by
  induction queues generalizing item rest with
  | nil => cases popped
  | cons queue queues inductionHypothesis =>
      have sortedRest := fun other member => sorted other (List.mem_cons_of_mem queue member)
      cases queue with
      | nil =>
          simp only [popLeast, Option.map_eq_some_iff, Prod.mk.injEq] at popped
          obtain ⟨⟨other, others⟩, found, rfl, rfl⟩ := popped
          simpa using inductionHypothesis found sortedRest
      | cons head queue =>
          have headFirst := List.pairwise_cons.mp (sorted _ List.mem_cons_self)
          have afterHead : ∀ other ∈ head :: queue, before head other = true := by
            intro other member
            rcases List.mem_cons.mp member with rfl | inQueue
            · exact refl_of_total total other
            · exact headFirst.1 other inQueue
          simp only [popLeast] at popped
          split at popped
          · rename_i exhausted
            cases popped
            rw [List.flatten_cons, popLeast_eq_none exhausted, List.append_nil]
            exact afterHead
          · rename_i least others found
            have leastFirst := inductionHypothesis found sortedRest
            intro other member
            rw [List.flatten_cons] at member
            split at popped
            · rename_i headLeast
              cases popped
              rcases List.mem_append.mp member with inQueue | inRest
              · exact afterHead other inQueue
              · exact trans headLeast (leastFirst other inRest)
            · rename_i notHead
              cases popped
              have leastBeforeHead := (total head item).resolve_left notHead
              rcases List.mem_append.mp member with inQueue | inRest
              · exact trans leastBeforeHead (afterHead other inQueue)
              · exact leastFirst other inRest

/-- Taking the least item leaves every queue in order. -/
theorem sorted_of_popLeast {queues rest : List (List Item)} {item : Item}
    (popped : popLeast before queues = some (item, rest))
    (sorted : ∀ queue ∈ queues, queue.Pairwise fun first second => before first second = true) :
    ∀ queue ∈ rest, queue.Pairwise fun first second => before first second = true := by
  induction queues generalizing item rest with
  | nil => cases popped
  | cons queue queues inductionHypothesis =>
      have sortedQueue := sorted queue List.mem_cons_self
      have sortedRest := fun other member => sorted other (List.mem_cons_of_mem queue member)
      cases queue with
      | nil =>
          simp only [popLeast, Option.map_eq_some_iff, Prod.mk.injEq] at popped
          obtain ⟨⟨other, others⟩, found, rfl, rfl⟩ := popped
          exact List.forall_mem_cons.mpr ⟨sortedQueue, inductionHypothesis found sortedRest⟩
      | cons head queue =>
          have sortedTail := (List.pairwise_cons.mp sortedQueue).2
          simp only [popLeast] at popped
          split at popped
          · cases popped
            exact List.forall_mem_cons.mpr ⟨sortedTail, sortedRest⟩
          · rename_i least others found
            split at popped
            · cases popped
              exact List.forall_mem_cons.mpr ⟨sortedTail, sortedRest⟩
            · cases popped
              exact List.forall_mem_cons.mpr ⟨sortedQueue, inductionHypothesis found sortedRest⟩

include total trans in
/-- **A merge that met no error is in order**, where each source is, and where an item that
waits before a source comes before all that this source and the later ones hold. -/
theorem pairwise_of_drain {fuel : Nat} {sources : List Source} {held : List (List Item)}
    {items : List Item}
    (enough : held.flatten.length + (sources.flatMap (itemsOf opens)).length < fuel)
    (drained : drain before opens waits fuel sources held = (items, none))
    (sortedSources : ∀ source ∈ sources,
      (itemsOf opens source).Pairwise fun first second => before first second = true)
    (sortedHeld : ∀ queue ∈ held, queue.Pairwise fun first second => before first second = true)
    (frontier : sources.Pairwise fun first second => ∀ item, waits item first = true →
      waits item second = true)
    (afterWaiting : ∀ source ∈ sources, ∀ item, waits item source = true →
      ∀ other ∈ itemsOf opens source, before item other = true) :
    items.Pairwise fun first second => before first second = true := by
  induction fuel generalizing sources held items with
  | zero => omega
  | succ fuel inductionHypothesis =>
      unfold drain at drained
      split at drained
      · simp at drained
      · rename_i left filled opened
        obtain ⟨⟨front, rfl, rfl, _⟩, _⟩ := fill_spec opened
        have sortedFilled : ∀ queue ∈ held ++ front.map (itemsOf opens),
            queue.Pairwise fun first second => before first second = true := by
          intro queue member
          rcases List.mem_append.mp member with inHeld | inFront
          · exact sortedHeld queue inHeld
          · obtain ⟨source, inSources, rfl⟩ := List.mem_map.mp inFront
            exact sortedSources source (List.mem_append_left _ inSources)
        split at drained
        · obtain rfl : [] = items := (Prod.mk.inj drained).1
          exact .nil
        · rename_i item rest popped
          obtain ⟨isItems, noError⟩ := Prod.mk.inj drained
          have drainedRest : drain before opens waits fuel left rest =
              ((drain before opens waits fuel left rest).1, none) := Prod.ext rfl noError
          have taken := perm_of_popLeast popped
          have leftFrontier := (List.pairwise_append.mp frontier).2.1
          have enoughRest : rest.flatten.length +
              (left.flatMap (itemsOf opens)).length < fuel := by
            have counted := taken.length_eq
            simp only [List.flatten_append, List.length_append, List.length_cons,
              List.flatMap_append, ← List.flatMap_def] at counted enough
            omega
          -- What is left was held, or is in a source the least item waits before.
          have least : ∀ other ∈ rest.flatten ++ left.flatMap (itemsOf opens),
              before item other = true := by
            intro other member
            rcases List.mem_append.mp member with inRest | inLeft
            · apply before_of_popLeast total trans popped sortedFilled
              exact taken.mem_iff.mpr (List.mem_cons_of_mem _ inRest)
            · obtain ⟨source, inSources, inItems⟩ := List.mem_flatMap.mp inLeft
              apply afterWaiting source (List.mem_append_right _ inSources) item ?_ other inItems
              cases left with
              | nil => cases inSources
              | cons next others =>
                  obtain ⟨found, isLeast, waiting⟩ := waits_of_fill opened rfl
                  obtain rfl : found = (item, rest) := Option.some.inj (isLeast.symm.trans popped)
                  rcases List.mem_cons.mp inSources with rfl | inOthers
                  · exact waiting
                  · exact (List.pairwise_cons.mp leftFrontier).1 source inOthers item waiting
          rw [← isItems, List.pairwise_cons]
          constructor
          · intro other member
            exact least other ((perm_of_drain enoughRest drainedRest).mem_iff.mp member)
          · exact inductionHypothesis enoughRest drainedRest
              (fun source member => sortedSources source (List.mem_append_right _ member))
              (sorted_of_popLeast popped sortedFilled) leftFrontier
              (fun source member => afterWaiting source (List.mem_append_right _ member))

end Ordered

theorem fill_congr {other : Source → Except Error (List Item)} {sources : List Source}
    (same : ∀ source ∈ sources, opens source = other source) (held : List (List Item)) :
    fill before opens waits sources held = fill before other waits sources held := by
  induction sources generalizing held with
  | nil => rfl
  | cons next sources inductionHypothesis =>
      rw [fill, fill, same next List.mem_cons_self]
      split
      · rfl
      · apply congrArg
        funext queue
        exact inductionHypothesis (fun source member => same source (List.mem_cons_of_mem _ member))
          _

/-- A merge reads nothing but its own sources. -/
theorem drain_congr {other : Source → Except Error (List Item)} {sources : List Source}
    (same : ∀ source ∈ sources, opens source = other source) (fuel : Nat)
    (held : List (List Item)) :
    drain before opens waits fuel sources held = drain before other waits fuel sources held := by
  induction fuel generalizing sources held with
  | zero => rfl
  | succ fuel inductionHypothesis =>
      rw [drain, drain, ← fill_congr same held]
      cases filled : fill before opens waits sources held with
      | error reason => rfl
      | ok found =>
          obtain ⟨left, held⟩ := found
          obtain ⟨⟨front, split, _, _⟩, _⟩ := fill_spec filled
          have sameLeft : ∀ source ∈ left, opens source = other source := by
            intro source member
            apply same
            rw [split]
            exact List.mem_append_right _ member
          simp only
          split
          · rfl
          · rw [inductionHypothesis sameLeft]

end Merge
end Library
