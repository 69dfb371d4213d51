import Datawatch.Library.Text

/-!
# Trees of directories

A directory's files and directories, the paths below it, and what removing some of it leaves.
-/

namespace Library

/-- What an entry of a directory can be called. -/
structure EntryName where
  text : Text
  nonempty : text ≠ []
  notDot : text ≠ ['.']
  noSlash : '/' ∉ text
deriving DecidableEq

/-- A directory, entry by entry. -/
inductive FileTree (Content : Type u)
  | nil
  | file (name : EntryName) (content : Content) (rest : FileTree Content)
  | directory (name : EntryName) (inside rest : FileTree Content)

namespace FileTree

variable {Content : Type u}

/-- Every file below, with its path. -/
def files : FileTree Content → List (List EntryName × Content)
  | nil => []
  | file name content rest => ([name], content) :: rest.files
  | directory name inside rest =>
      (inside.files.map fun entry => (name :: entry.1, entry.2)) ++ rest.files

/-- Every directory below, with its path. -/
def directories : FileTree Content → List (List EntryName × FileTree Content)
  | nil => []
  | file _ _ rest => rest.directories
  | directory name inside rest =>
      ([name], inside) :: (inside.directories.map fun entry => (name :: entry.1, entry.2)) ++
        rest.directories

/-- The directories in a directory. -/
def children : FileTree Content → List (EntryName × FileTree Content)
  | nil => []
  | file _ _ rest => rest.children
  | directory name inside rest => (name, inside) :: rest.children

/-- The first directory of a name, empty where there is none. -/
def child (name : EntryName) : FileTree Content → FileTree Content
  | nil => nil
  | file _ _ rest => rest.child name
  | directory other inside rest => if other = name then inside else rest.child name

/-- The directory at a path, empty where there is none. -/
def descend : List EntryName → FileTree Content → FileTree Content
  | [], tree => tree
  | name :: path, tree => descend path (tree.child name)

/-- The sizes of the files below, summed. -/
def size (bytes : Content → Nat) : FileTree Content → Nat
  | nil => 0
  | file _ content rest => bytes content + rest.size bytes
  | directory _ inside rest => inside.size bytes + rest.size bytes

/-- What is left where some files are removed. -/
def keepFiles : (List EntryName → Bool) → FileTree Content → FileTree Content
  | _, nil => nil
  | keep, file name content rest =>
      if keep [name] then file name content (rest.keepFiles keep) else rest.keepFiles keep
  | keep, directory name inside rest =>
      directory name (inside.keepFiles fun path => keep (name :: path)) (rest.keepFiles keep)

/-- What is left where the directory at a path is removed. -/
def removeAt : List EntryName → FileTree Content → FileTree Content
  | _, nil => nil
  | path, file name content rest => file name content (rest.removeAt path)
  | path, directory name inside rest =>
      match path with
      | [] => directory name inside (rest.removeAt [])
      | first :: below =>
          if name = first then
            if below = [] then rest.removeAt [first]
            else directory name (inside.removeAt below) (rest.removeAt (first :: below))
          else directory name inside (rest.removeAt (first :: below))

/-- Whether a path leads into a directory. -/
def leadsInto (directory path : List EntryName) : Bool :=
  decide (directory ≠ [] ∧ directory <+: path ∧ directory ≠ path)

theorem leadsInto_cons {first name : EntryName} {below path : List EntryName}
    (deeper : below ≠ []) :
    leadsInto (first :: below) (name :: path) =
      (decide (name = first) && leadsInto below path) := by
  by_cases same : name = first
  · subst same
    simp [leadsInto, List.cons_prefix_cons, deeper]
  · simp [leadsInto, List.cons_prefix_cons, Ne.symm same, same]

theorem leadsInto_singleton {first name : EntryName} {path : List EntryName} :
    leadsInto [first] (name :: path) = (decide (name = first) && decide (path ≠ [])) := by
  by_cases same : name = first
  · subst same
    simp [leadsInto, List.cons_prefix_cons, eq_comm]
  · simp [leadsInto, List.cons_prefix_cons, Ne.symm same, same]

theorem path_ne_nil {tree : FileTree Content} {entry : List EntryName × Content}
    (isFile : entry ∈ tree.files) : entry.1 ≠ [] := by
  induction tree with
  | nil => cases isFile
  | file name content rest inductionHypothesis =>
      rcases List.mem_cons.mp isFile with rfl | later
      · exact List.cons_ne_nil _ _
      · exact inductionHypothesis later
  | directory name inside rest _ inductionHypothesis =>
      rcases List.mem_append.mp isFile with below | later
      · obtain ⟨found, _, rfl⟩ := List.mem_map.mp below
        exact List.cons_ne_nil _ _
      · exact inductionHypothesis later

theorem directory_ne_nil {tree inside : FileTree Content} {path : List EntryName}
    (isDirectory : (path, inside) ∈ tree.directories) : path ≠ [] := by
  induction tree with
  | nil => cases isDirectory
  | file name content rest inductionHypothesis => exact inductionHypothesis isDirectory
  | directory name below rest _ inductionHypothesis =>
      rcases List.mem_cons.mp isDirectory with same | further
      · rw [(Prod.mk.inj same).1]
        exact List.cons_ne_nil _ _
      · rcases List.mem_append.mp further with within | later
        · obtain ⟨found, _, same⟩ := List.mem_map.mp within
          rw [← (Prod.mk.inj same).1]
          exact List.cons_ne_nil _ _
        · exact inductionHypothesis later

/-- A directory further down is one of a directory at the top. -/
theorem mem_directories_cons {tree inside : FileTree Content} {top : EntryName}
    {path : List EntryName} (deeper : path ≠ []) :
    (top :: path, inside) ∈ tree.directories ↔
      ∃ below, (top, below) ∈ tree.children ∧ (path, inside) ∈ below.directories := by
  induction tree with
  | nil => simp [directories, children]
  | file name content rest inductionHypothesis => exact inductionHypothesis
  | directory name below rest _ inductionHypothesis =>
      simp only [directories, children, List.cons_append, List.mem_cons, List.mem_append,
        List.mem_map, Prod.mk.injEq, List.cons.injEq, deeper, and_false, false_and, false_or,
        inductionHypothesis]
      constructor
      · rintro (⟨⟨found, other⟩, isBelow, ⟨rfl, rfl⟩, rfl⟩ | ⟨found, isChild, isBelow⟩)
        · exact ⟨below, .inl ⟨rfl, rfl⟩, isBelow⟩
        · exact ⟨found, .inr isChild, isBelow⟩
      · rintro ⟨found, ⟨rfl, rfl⟩ | isChild, isBelow⟩
        · exact .inl ⟨(path, inside), isBelow, ⟨rfl, rfl⟩, rfl⟩
        · exact .inr ⟨found, isChild, isBelow⟩

/-- The directories of the one of a name are among those of the tree, below that name. -/
theorem sublist_directories_child (name : EntryName) (tree : FileTree Content) :
    ((tree.child name).directories.map fun entry => name :: entry.1).Sublist
      (tree.directories.map Prod.fst) := by
  induction tree with
  | nil => exact List.Sublist.refl _
  | file other content rest inductionHypothesis => exact inductionHypothesis
  | directory other inside rest _ inductionHypothesis =>
      simp only [child, directories, List.map_append, List.map_cons, List.map_map, List.cons_append]
      split
      · rename_i same
        subst same
        exact (List.sublist_append_left _ _).cons _
      · exact (inductionHypothesis.trans (List.sublist_append_right _ _)).cons _

/-- A tree that names no directory twice names none twice below any path. -/
theorem nodup_directories_descend (root : List EntryName) {tree : FileTree Content}
    (distinct : (tree.directories.map Prod.fst).Nodup) :
    ((tree.descend root).directories.map Prod.fst).Nodup := by
  induction root generalizing tree with
  | nil => exact distinct
  | cons name root inductionHypothesis =>
      apply inductionHypothesis
      have below := (sublist_directories_child name tree).nodup distinct
      rw [show (fun entry : List EntryName × FileTree Content => name :: entry.1) =
        List.cons name ∘ Prod.fst from rfl, ← List.map_map] at below
      exact below.of_map

/-- The files kept are those the removal keeps. -/
theorem files_keepFiles (keep : List EntryName → Bool) (tree : FileTree Content) :
    (tree.keepFiles keep).files = tree.files.filter fun entry => keep entry.1 := by
  induction tree generalizing keep with
  | nil => rfl
  | file name content rest inductionHypothesis =>
      rw [keepFiles, files, List.filter_cons]
      split
      · rw [files, inductionHypothesis]
      · exact inductionHypothesis keep
  | directory name inside rest insideHypothesis restHypothesis =>
      rw [keepFiles, files, files, List.filter_append, insideHypothesis, restHypothesis,
        List.filter_map]
      rfl

/-- Removing a directory removes the files that lie in it, and no other. -/
theorem files_removeAt (path : List EntryName) (tree : FileTree Content) :
    (tree.removeAt path).files = tree.files.filter fun entry => !leadsInto path entry.1 := by
  induction tree generalizing path with
  | nil => rfl
  | file name content rest inductionHypothesis =>
      have outside : leadsInto path [name] = false := by
        cases path with
        | nil => simp [leadsInto]
        | cons first below =>
            simp only [leadsInto, decide_eq_false_iff_not, not_and, not_not]
            intro _ isPrefix
            obtain ⟨rfl, isNil⟩ := List.cons_prefix_cons.mp isPrefix
            rw [List.prefix_nil.mp isNil]
      rw [removeAt, files, files, List.filter_cons, if_pos (by simp [outside]),
        inductionHypothesis]
  | directory name inside rest insideHypothesis restHypothesis =>
      have below (keep : List EntryName → Bool)
          (same : ∀ entry ∈ inside.files, (!leadsInto path (name :: entry.1)) = keep entry.1) :
          (inside.files.map fun entry => (name :: entry.1, entry.2)).filter
              (fun entry => !leadsInto path entry.1) =
            (inside.files.filter fun entry => keep entry.1).map
              fun entry => (name :: entry.1, entry.2) := by
        rw [List.filter_map]
        exact congrArg _ (List.filter_congr same)
      rw [files, List.filter_append, ← restHypothesis]
      cases path with
      | nil =>
          rw [removeAt, files, below (fun _ => true) (fun _ _ => by simp [leadsInto]),
            List.filter_true]
      | cons first deeper =>
          simp only [removeAt]
          by_cases same : name = first
          · rw [if_pos same]
            by_cases whole : deeper = []
            · subst whole
              rw [if_pos rfl, below (fun _ => false), List.filter_eq_nil_iff.mpr (by simp)]
              · rfl
              · intro entry isFile
                rw [leadsInto_singleton]
                simp [same, path_ne_nil isFile]
            · rw [if_neg whole, files, insideHypothesis,
                below fun found => !leadsInto deeper found]
              intro entry _
              rw [leadsInto_cons whole]
              simp [same]
          · rw [if_neg same, files, below (fun _ => true), List.filter_true]
            intro entry _
            by_cases whole : deeper = []
            · subst whole
              rw [leadsInto_singleton]
              simp [same]
            · rw [leadsInto_cons whole]
              simp [same]

theorem child_keepFiles (keep : List EntryName → Bool) (name : EntryName)
    (tree : FileTree Content) :
    (tree.keepFiles keep).child name =
      (tree.child name).keepFiles fun path => keep (name :: path) := by
  induction tree with
  | nil => rfl
  | file other content rest inductionHypothesis =>
      rw [keepFiles, child]
      split
      · exact inductionHypothesis
      · exact inductionHypothesis
  | directory other inside rest _ inductionHypothesis =>
      rw [keepFiles, child, child]
      by_cases same : other = name
      · rw [if_pos same, if_pos same, same]
      · rw [if_neg same, if_neg same, inductionHypothesis]

theorem descend_keepFiles (keep : List EntryName → Bool) (root : List EntryName)
    (tree : FileTree Content) :
    (tree.keepFiles keep).descend root =
      (tree.descend root).keepFiles fun path => keep (root ++ path) := by
  induction root generalizing keep tree with
  | nil => rfl
  | cons name root inductionHypothesis =>
      rw [descend, descend, child_keepFiles, inductionHypothesis]
      rfl

/-- A removal further down leaves the directories it does not go through. -/
theorem child_removeAt {first name : EntryName} {below : List EntryName} (deeper : below ≠ [])
    (tree : FileTree Content) :
    (tree.removeAt (first :: below)).child name =
      if name = first then (tree.child name).removeAt below else tree.child name := by
  induction tree with
  | nil =>
      rw [removeAt]
      split
      · rfl
      · rfl
  | file other content rest inductionHypothesis =>
      rw [removeAt, child, inductionHypothesis, child]
  | directory other inside rest _ inductionHypothesis =>
      simp only [removeAt, if_neg deeper]
      by_cases through : other = first
      · rw [if_pos through, child, inductionHypothesis, child]
        by_cases same : other = name
        · rw [if_pos same, if_pos same, if_pos (same ▸ through)]
        · rw [if_neg same, if_neg same]
      · rw [if_neg through, child, inductionHypothesis, child]
        by_cases same : other = name
        · rw [if_pos same, if_pos same, if_neg (same ▸ through)]
        · rw [if_neg same, if_neg same]

/-- Removing one directory leaves the others of its parent. -/
theorem child_removeAt_singleton {first name : EntryName} (other : name ≠ first)
    (tree : FileTree Content) : (tree.removeAt [first]).child name = tree.child name := by
  induction tree with
  | nil => rfl
  | file found content rest inductionHypothesis =>
      rw [removeAt, child, inductionHypothesis, child]
  | directory found inside rest _ inductionHypothesis =>
      simp only [removeAt, if_true]
      by_cases through : found = first
      · rw [if_pos through, inductionHypothesis, child, if_neg]
        exact fun same => other (same.symm.trans through)
      · rw [if_neg through, child, child, inductionHypothesis]

/-- Removing a directory below a root removes it from the root's tree. -/
theorem descend_removeAt_append (root : List EntryName) {path : List EntryName} (below : path ≠ [])
    (tree : FileTree Content) :
    (tree.removeAt (root ++ path)).descend root = (tree.descend root).removeAt path := by
  induction root generalizing tree with
  | nil => rfl
  | cons name root inductionHypothesis =>
      rw [List.cons_append, descend, descend,
        child_removeAt (by simp [below]), if_pos rfl, inductionHypothesis]

/-- Removing a directory that neither holds a root nor lies in it leaves the root's tree. -/
theorem descend_removeAt_apart {root path : List EntryName} (outside : ¬ path <+: root)
    (apart : ¬ root <+: path) (tree : FileTree Content) :
    (tree.removeAt path).descend root = tree.descend root := by
  induction root generalizing path tree with
  | nil => exact absurd List.nil_prefix apart
  | cons name root inductionHypothesis =>
      cases path with
      | nil => exact absurd List.nil_prefix outside
      | cons first below =>
          rw [descend, descend]
          by_cases whole : below = []
          · subst whole
            rw [child_removeAt_singleton]
            rintro rfl
            exact outside (List.cons_prefix_cons.mpr ⟨rfl, List.nil_prefix⟩)
          · rw [child_removeAt whole]
            split
            case isTrue same =>
              subst same
              apply inductionHypothesis
              · exact fun within => outside (List.cons_prefix_cons.mpr ⟨rfl, within⟩)
              · exact fun within => apart (List.cons_prefix_cons.mpr ⟨rfl, within⟩)
            case isFalse => rfl

end FileTree
end Library
