import Datawatch.Library.Text

/-!
# Subjects and patterns

Dotted subjects, the patterns that match them, and what a list of allowed and of denied patterns
permits.
-/

namespace Library
namespace Subjects

/-- The levels of a subject, or of a pattern. -/
def levels (subject : Text) : List Text := subject.splitOn '.'

/-- Whether a pattern's levels match a subject's: `*` any one, a final `>` one or more. -/
def matchLevels : List Text → List Text → Bool
  | [], subject => subject.isEmpty
  | _ :: _, [] => false
  | level :: pattern, token :: subject =>
      if level = ">".toList ∧ pattern = [] then true
      else (level = "*".toList || level = token) && matchLevels pattern subject

/-- Whether a pattern matches a subject. -/
def accepts (pattern subject : Text) : Bool := matchLevels (levels pattern) (levels subject)

/-- What a user may do in one direction: nothing that is denied and, where anything is listed
as allowed, only what is. -/
structure Permission where
  allow : List Text
  deny : List Text
deriving DecidableEq

/-- Whether a subject is permitted. -/
def Permission.permits (permission : Permission) (subject : Text) : Bool :=
  (permission.allow.isEmpty || permission.allow.any (accepts · subject)) &&
    !permission.deny.any (accepts · subject)

/-- A subject reaches a subscriber where a subscription it may make matches it. -/
def Permission.Receives (permission : Permission) (subject : Text) : Prop :=
  ∃ subscription, permission.permits subscription = true ∧ accepts subscription subject = true

/-- A level that stands for itself only. -/
def Literal (level : Text) : Prop := level ≠ ">".toList ∧ level ≠ "*".toList

/-- A subject always has a first level. -/
theorem exists_levels_eq_cons (subject : Text) : ∃ level rest, levels subject = level :: rest :=
  List.exists_cons_of_ne_nil (List.splitOn_ne_nil '.' subject)

/-- A level without a dot comes off the front of what follows it. -/
theorem levels_append {level : Text} (single : '.' ∉ level) (rest : Text) :
    levels (level ++ '.' :: rest) = level :: levels rest :=
  List.splitOn_append_cons_self_of_not_mem single rest

/-- Text without a dot is one level. -/
theorem levels_of_single {level : Text} (single : '.' ∉ level) : levels level = [level] :=
  List.splitOn_eq_singleton single

theorem matchLevels_literal {level : Text} (literal : Literal level) (pattern : List Text)
    (token : Text) (subject : List Text) :
    matchLevels (level :: pattern) (token :: subject) =
      (decide (level = token) && matchLevels pattern subject) := by
  rw [matchLevels, if_neg fun final => literal.1 final.1, decide_eq_false literal.2,
    Bool.false_or]

/-- A final `>` matches one level or more. -/
@[simp] theorem matchLevels_rest (subject : List Text) :
    matchLevels [">".toList] subject = !subject.isEmpty := by
  cases subject with
  | nil => rfl
  | cons token subject =>
      rw [matchLevels, if_pos ⟨rfl, rfl⟩]
      rfl

@[simp] theorem matchLevels_nil (subject : List Text) :
    matchLevels [] subject = subject.isEmpty := by
  rw [matchLevels]

/-- A pattern whose first level stands for itself matches only subjects that open with it. -/
theorem head?_of_accepts {root pattern subject : Text} (literal : Literal root)
    (rooted : (levels pattern).head? = some root) (accepted : accepts pattern subject = true) :
    (levels subject).head? = some root := by
  obtain ⟨patternRest, isPattern⟩ := List.head?_eq_some_iff.mp rooted
  obtain ⟨token, rest, isSubject⟩ := exists_levels_eq_cons subject
  rw [accepts, isPattern, isSubject, matchLevels_literal literal, Bool.and_eq_true] at accepted
  rw [isSubject, List.head?_cons, of_decide_eq_true accepted.1]

/-- Everything is denied by the pattern of one level or more. -/
theorem accepts_rest (subject : Text) : accepts ">".toList subject = true := by
  obtain ⟨level, rest, isLevels⟩ := exists_levels_eq_cons subject
  have pattern : levels ">".toList = [">".toList] := levels_of_single (by decide)
  rw [accepts, pattern, isLevels, matchLevels_rest]
  rfl

/-- Where all is denied nothing is permitted, and so nothing received. -/
theorem Permission.not_permits_of_deny_rest {permission : Permission}
    (denied : ">".toList ∈ permission.deny) (subject : Text) :
    permission.permits subject = false := by
  have isDenied : permission.deny.any (accepts · subject) = true :=
    List.any_eq_true.mpr ⟨_, denied, accepts_rest subject⟩
  rw [Permission.permits, isDenied, Bool.not_true, Bool.and_false]

/-- Where something is allowed and nothing denied, what is allowed is permitted. -/
theorem Permission.permits_of_allow {allow : List Text} (listed : allow ≠ []) (subject : Text) :
    Permission.permits ⟨allow, []⟩ subject = allow.any (accepts · subject) := by
  simp [Permission.permits, listed]

/-- A subscriber allowed patterns of one root receives only subjects of that root. -/
theorem Permission.head?_of_receives {root subject : Text} {allow : List Text}
    (literal : Literal root) (listed : allow ≠ [])
    (rooted : ∀ pattern ∈ allow, (levels pattern).head? = some root)
    (receives : Permission.Receives ⟨allow, []⟩ subject) :
    (levels subject).head? = some root := by
  obtain ⟨subscription, permitted, reaches⟩ := receives
  rw [permits_of_allow listed] at permitted
  obtain ⟨pattern, isAllowed, accepted⟩ := List.any_eq_true.mp permitted
  exact head?_of_accepts literal (head?_of_accepts literal (rooted pattern isAllowed) accepted)
    reaches

end Subjects
end Library
