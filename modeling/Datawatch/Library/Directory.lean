import Mathlib.Data.List.AList
import Mathlib.Algebra.BigOperators.Group.List.Basic
import Mathlib.Algebra.Order.Monoid.Defs
import Mathlib.Algebra.Order.BigOperators.Group.List

/-!
# Directories and the effects that change them

A directory is a finite map from names to contents.  A program changes it through
atomic effects, so a crash leaves it after some prefix of them.  Contents are
measured in an additive monoid, which a multiset of rows is an instance of.
-/

namespace Library

/-- A finite map from names to contents. -/
abbrev Directory (Name : Type u) (Content : Type v) := AList fun _ : Name => Content

namespace Directory

variable {Name : Type u} {Content : Type v} [DecidableEq Name]

/-- The directory that holds the listed entries, the first of two under one name. -/
def ofList (entries : List (Name × Content)) : Directory Name Content :=
  entries.foldr (fun entry directory => directory.insert entry.1 entry.2) ∅

omit [DecidableEq Name] in
/-- A directory is its entries, which is how two of them are compared by evaluation. -/
theorem eq_some_of_entries_eq {made : Option (Directory Name Content)}
    {directory : Directory Name Content}
    (sameEntries : made.map AList.entries = some directory.entries) : made = some directory := by
  obtain ⟨found, rfl, equal⟩ := Option.map_eq_some_iff.mp sameEntries
  exact congrArg some (AList.ext equal)

/-- One atomic change: a rename into place, or the removal of a name. -/
inductive Effect (Name : Type u) (Content : Type v)
  | commit (name : Name) (content : Content)
  | remove (name : Name)
deriving DecidableEq

/-- The name an effect is about. -/
def Effect.target : Effect Name Content → Name
  | .commit name _ => name
  | .remove name => name

/-- An effect on files, as one on what they are taken for. -/
def Effect.map {Other : Type w} (take : Content → Other) : Effect Name Content → Effect Name Other
  | .commit name content => .commit name (take content)
  | .remove name => .remove name

/-- What one effect makes of a directory. -/
def Effect.apply : Effect Name Content → Directory Name Content → Directory Name Content
  | .commit name content, directory => directory.insert name content
  | .remove name, directory => directory.erase name

/-- The effects in order.  A crash applies `effects.take count`. -/
def applyAll (effects : List (Effect Name Content)) (directory : Directory Name Content) :
    Directory Name Content :=
  effects.foldl (fun current effect => effect.apply current) directory

@[simp] theorem applyAll_nil (directory : Directory Name Content) :
    applyAll [] directory = directory := rfl

@[simp] theorem applyAll_cons
    (effect : Effect Name Content) (effects : List (Effect Name Content))
    (directory : Directory Name Content) :
    applyAll (effect :: effects) directory = applyAll effects (effect.apply directory) := rfl

theorem applyAll_append
    (first second : List (Effect Name Content)) (directory : Directory Name Content) :
    applyAll (first ++ second) directory = applyAll second (applyAll first directory) := by
  simp [applyAll]

/-- An effect leaves every other name as it was. -/
theorem Effect.lookup_apply_of_ne
    {effect : Effect Name Content} {name : Name}
    (other : name ≠ effect.target) (directory : Directory Name Content) :
    (effect.apply directory).lookup name = directory.lookup name := by
  cases effect with
  | commit target content => exact AList.lookup_insert_ne other
  | remove target => exact AList.lookup_erase_ne other

/-- Effects leave every name none of them is about as it was. -/
theorem lookup_applyAll_of_untouched
    {effects : List (Effect Name Content)} {name : Name}
    (untouched : ∀ effect ∈ effects, name ≠ effect.target)
    (directory : Directory Name Content) :
    (applyAll effects directory).lookup name = directory.lookup name := by
  induction effects generalizing directory with
  | nil => rfl
  | cons effect effects inductionHypothesis =>
      rw [applyAll_cons, inductionHypothesis fun other member =>
        untouched other (List.mem_cons_of_mem _ member)]
      exact effect.lookup_apply_of_ne (untouched effect List.mem_cons_self) directory

/-- The commit of every entry in a list, in its order. -/
def commits (entries : List (Name × Content)) : List (Effect Name Content) :=
  entries.map fun entry => .commit entry.1 entry.2

/-- Commits under distinct names leave each its content. -/
theorem lookup_applyAll_commits
    {entries : List (Name × Content)} (distinct : (entries.map Prod.fst).Nodup)
    {entry : Name × Content} (member : entry ∈ entries) (directory : Directory Name Content) :
    (applyAll (commits entries) directory).lookup entry.1 = some entry.2 := by
  induction entries generalizing directory with
  | nil => cases member
  | cons first entries inductionHypothesis =>
      obtain ⟨fresh, distinctRest⟩ := List.nodup_cons.mp distinct
      rcases List.mem_cons.mp member with rfl | inRest
      · have untouched : ∀ effect ∈ commits entries, entry.1 ≠ effect.target := by
          rintro effect inEffects same
          obtain ⟨other, isEntry, rfl⟩ := List.mem_map.mp inEffects
          exact fresh (List.mem_map.mpr ⟨other, isEntry, same.symm⟩)
        simp only [commits, List.map_cons, applyAll_cons]
        exact (lookup_applyAll_of_untouched untouched _).trans (AList.lookup_insert _)
      · exact inductionHypothesis distinctRest inRest _

/-- After a list of commits a name holds one of the contents committed under it, or what it
held where none was. -/
theorem lookup_applyAll_commits_cases
    (entries : List (Name × Content)) (directory : Directory Name Content) (name : Name) :
    (∃ content, (name, content) ∈ entries ∧
        (applyAll (commits entries) directory).lookup name = some content) ∨
      (name ∉ entries.map Prod.fst ∧
        (applyAll (commits entries) directory).lookup name = directory.lookup name) := by
  induction entries generalizing directory with
  | nil => exact .inr ⟨by simp, rfl⟩
  | cons first entries inductionHypothesis =>
      rcases inductionHypothesis (directory.insert first.1 first.2) with
        ⟨content, member, found⟩ | ⟨absent, same⟩
      · exact .inl ⟨content, List.mem_cons_of_mem _ member, found⟩
      · by_cases isFirst : name = first.1
        · subst isFirst
          exact .inl ⟨first.2, List.mem_cons_self, same.trans (AList.lookup_insert _)⟩
        · refine .inr ⟨?_, same.trans (AList.lookup_insert_ne isFirst)⟩
          rw [List.map_cons, List.mem_cons, not_or]
          exact ⟨isFirst, absent⟩

omit [DecidableEq Name] in
/-- A prefix of a list of commits commits a prefix of the entries. -/
theorem take_commits (count : Nat) (entries : List (Name × Content)) :
    (commits entries).take count = commits (entries.take count) := by
  simp [commits, List.map_take]

omit [DecidableEq Name] in
theorem commits_append (first second : List (Name × Content)) :
    commits (first ++ second) = commits first ++ commits second := by
  simp [commits]

/-- The removal of every name in a list, in its order. -/
def removals (names : List Name) : List (Effect Name Content) :=
  names.map .remove

/-- After a list of removals exactly the names outside it are left. -/
theorem lookup_applyAll_removals
    (names : List Name) (directory : Directory Name Content) (name : Name) :
    (applyAll (removals names) directory).lookup name =
      if name ∈ names then none else directory.lookup name := by
  induction names generalizing directory with
  | nil => simp [removals]
  | cons first names inductionHypothesis =>
      have step := inductionHypothesis (directory.erase first)
      simp only [removals, List.map_cons, applyAll_cons, Effect.apply] at step ⊢
      rw [step]
      by_cases same : name = first
      · subst same
        simp
      · simp [same, AList.lookup_erase_ne same]

omit [DecidableEq Name] in
/-- A prefix of a list of removals removes a prefix of the names. -/
theorem take_removals (count : Nat) (names : List Name) :
    (removals names : List (Effect Name Content)).take count = removals (names.take count) := by
  simp [removals, List.map_take]

omit [DecidableEq Name] in
/-- A crash among commits and then removals makes some of the commits, and some of the
removals only once it made them all. -/
theorem take_commits_append_removals
    (count : Nat) (entries : List (Name × Content)) (names : List Name) :
    (commits entries ++ removals names).take count =
      commits (entries.take count) ++ removals (names.take (count - entries.length)) := by
  rw [List.take_append, take_commits, take_removals]
  simp [commits]

/-- After commits and then removals a name holds what the commits left there, unless it was
removed. -/
theorem lookup_applyAll_commits_append_removals
    (entries : List (Name × Content)) (names : List Name) (directory : Directory Name Content)
    (name : Name) :
    (applyAll (commits entries ++ removals names) directory).lookup name =
      if name ∈ names then none else (applyAll (commits entries) directory).lookup name := by
  rw [applyAll_append, lookup_applyAll_removals]

omit [DecidableEq Name] in
theorem mem_removals {names : List Name} {effect : Effect Name Content} :
    effect ∈ removals names ↔ ∃ name ∈ names, effect = .remove name := by
  simp [removals, eq_comm]

/-- A name with its content is an entry exactly when looking it up finds it. -/
theorem mem_entries_iff_lookup
    {directory : Directory Name Content} {name : Name} {content : Content} :
    ⟨name, content⟩ ∈ directory.entries ↔ directory.lookup name = some content := by
  rw [← AList.mem_lookup_iff]
  rfl

section Weight

variable {Amount : Type w} [AddCommMonoid Amount]

/-- What a directory holds in all, each entry measured by its name and content. -/
def weight (measure : Name → Content → Amount) (directory : Directory Name Content) : Amount :=
  (directory.entries.map fun entry => measure entry.1 entry.2).sum

/-- What one name holds: nothing where it is absent. -/
def held (measure : Name → Content → Amount) (directory : Directory Name Content)
    (name : Name) : Amount :=
  (directory.lookup name).elim 0 (measure name)

/-- A directory that holds exactly the listed entries weighs what they do. -/
theorem weight_eq_sum_of_lookup_iff
    (measure : Name → Content → Amount) {directory : Directory Name Content}
    {entries : List (Name × Content)} (distinct : entries.Nodup)
    (holds : ∀ name content, directory.lookup name = some content ↔ (name, content) ∈ entries) :
    weight measure directory = (entries.map fun entry => measure entry.1 entry.2).sum := by
  have pairsDistinct : (directory.entries.map fun entry => (entry.1, entry.2)).Nodup := by
    refine directory.nodupKeys.nodup.map fun first second same => ?_
    obtain ⟨firstName, firstContent⟩ := first
    obtain ⟨secondName, secondContent⟩ := second
    simpa using same
  have perm : (directory.entries.map fun entry => (entry.1, entry.2)).Perm entries := by
    refine (List.perm_ext_iff_of_nodup pairsDistinct distinct).mpr ?_
    rintro ⟨name, content⟩
    rw [← holds, ← mem_entries_iff_lookup, List.mem_map]
    constructor
    · rintro ⟨entry, member, same⟩
      obtain ⟨rfl, rfl⟩ := Prod.mk.inj same
      exact member
    · exact fun member => ⟨_, member, rfl⟩
  rw [weight, ← (perm.map fun entry => measure entry.1 entry.2).sum_eq, List.map_map]
  rfl

/-- A directory's weight is one name's share and the weight of the rest. -/
theorem weight_eq_held_add_erase
    (measure : Name → Content → Amount) (directory : Directory Name Content) (name : Name) :
    weight measure directory = held measure directory name + weight measure (directory.erase name) := by
  by_cases present : name ∈ directory
  · obtain ⟨content, before, after, _, entries_eq, erased_eq⟩ :=
      List.exists_of_kerase present
    have found : directory.lookup name = some content :=
      mem_entries_iff_lookup.mp (by rw [entries_eq]; simp)
    have erased : (directory.erase name).entries = before ++ after := erased_eq
    simp only [weight, held, found, Option.elim_some, entries_eq, erased]
    simp only [List.map_append, List.map_cons, List.sum_append, List.sum_cons]
    exact add_left_comm _ _ _
  · have absent : directory.lookup name = none := AList.lookup_eq_none.mpr present
    have unchanged : directory.erase name = directory :=
      AList.ext (List.kerase_of_notMem_keys present)
    simp [held, absent, unchanged]

/-- A commit replaces what its name held. -/
theorem weight_insert
    (measure : Name → Content → Amount) (directory : Directory Name Content)
    (name : Name) (content : Content) :
    weight measure (directory.insert name content) =
      measure name content + weight measure (directory.erase name) := by
  simp only [weight, AList.entries_insert, List.map_cons, List.sum_cons]
  rfl

/-- Removing distinct names takes away exactly what they held. -/
theorem weight_eq_sum_held_add_removals
    (measure : Name → Content → Amount) {names : List Name}
    (distinct : names.Nodup) (directory : Directory Name Content) :
    weight measure directory =
      (names.map (held measure directory)).sum +
        weight measure (applyAll (removals names) directory) := by
  induction names generalizing directory with
  | nil => simp [removals]
  | cons first names inductionHypothesis =>
      obtain ⟨fresh, distinctRest⟩ := List.nodup_cons.mp distinct
      have unchanged : names.map (held measure (directory.erase first)) =
          names.map (held measure directory) := by
        refine List.map_congr_left fun name member => ?_
        have different : name ≠ first := fun same => fresh (same ▸ member)
        simp only [held, AList.lookup_erase_ne different]
      calc weight measure directory
          = held measure directory first + weight measure (directory.erase first) :=
            weight_eq_held_add_erase measure directory first
        _ = held measure directory first +
              ((names.map (held measure (directory.erase first))).sum +
                weight measure (applyAll (removals names) (directory.erase first))) := by
            rw [← inductionHypothesis distinctRest]
        _ = _ := by
            rw [unchanged, List.map_cons, List.sum_cons, add_assoc]
            rfl

/-- Committing under one name what a set of names held, and then removing the other
names, changes no weight. -/
theorem weight_consolidate [IsLeftCancelAdd Amount]
    (measure : Name → Content → Amount) {names : List Name} (distinct : names.Nodup)
    {target : Name} {content : Content} {directory : Directory Name Content}
    (replaced : target ∈ directory → target ∈ names)
    (whole : measure target content = (names.map (held measure directory)).sum) :
    weight measure
        (applyAll (.commit target content :: removals (names.filter fun name => name ≠ target))
          directory) =
      weight measure directory := by
  have others : (names.filter fun name => name ≠ target).map
        (held measure (directory.insert target content)) =
      (names.filter fun name => name ≠ target).map (held measure directory) := by
    refine List.map_congr_left fun name member => ?_
    have different : name ≠ target := by simpa using (List.mem_filter.mp member).2
    simp only [held, AList.lookup_insert_ne different]
  have committed := weight_eq_sum_held_add_removals measure
    (distinct.filter fun name => name ≠ target) (directory.insert target content)
  rw [others, weight_insert] at committed
  have split : (names.map (held measure directory)).sum =
      ((names.filter fun name => name ≠ target).map (held measure directory)).sum +
        held measure directory target := by
    by_cases member : target ∈ names
    · have extracted := (List.perm_cons_erase member).map (held measure directory)
      have erased : names.erase target = names.filter fun name => name ≠ target := by
        rw [distinct.erase_eq_filter]
        exact List.filter_congr fun name _ => by rw [Bool.eq_iff_iff]; simp
      rw [extracted.sum_eq, List.map_cons, List.sum_cons, add_comm, erased]
    · have absent : target ∉ directory := fun present => member (replaced present)
      have unfiltered : (names.filter fun name => name ≠ target) = names :=
        List.filter_eq_self.mpr fun name inNames => by
          simpa using fun same : name = target => member (same ▸ inNames)
      rw [unfiltered, held, AList.lookup_eq_none.mpr absent, Option.elim_none, add_zero]
  refine add_left_cancel (a := ((names.filter fun name => name ≠ target).map
    (held measure directory)).sum) ?_
  calc _ = measure target content + weight measure (directory.erase target) := committed.symm
    _ = _ := by
      rw [whole, split, add_assoc, ← weight_eq_held_add_erase]

end Weight

end Directory
end Library
