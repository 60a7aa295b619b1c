import Cccp.Lib.OsPath

/-!
# Lexical normalisation

What a path denotes when `.` and `..` are resolved by the names alone, and which paths lie
below another one.  A relative path that never climbs above its start stays below every
base it is joined to (`Path.below_join`).
-/

namespace Cccp

namespace Path

/-- A normalised path followed by one component; above the root there is only the root. -/
def push (path : Path) : Component → Path
  | .rootDir => [.rootDir]
  | .curDir => path
  | .normal name => path ++ [.normal name]
  | .parentDir =>
      match path.getLast? with
      | some (.normal _) => path.dropLast
      | some .rootDir => path
      | _ => path ++ [.parentDir]

def normalize (path : Path) : Path :=
  path.foldl push []

/-- `path` lies at or below `base`: after normalisation, names follow `base`. -/
def Below (base path : Path) : Prop :=
  ∃ names : List Bytes, path.normalize = base.normalize ++ names.map .normal

/-- The path never climbs above the place `depth` names up from where it starts. -/
def inside : Nat → Path → Bool
  | _, [] => true
  | depth, .normal _ :: rest => inside (depth + 1) rest
  | depth, .curDir :: rest => inside depth rest
  | depth + 1, .parentDir :: rest => inside depth rest
  | 0, .parentDir :: _ => false
  | _, .rootDir :: _ => false

variable {base path rel : Path} {name : Bytes}

theorem below_self (base : Path) : Below base base :=
  ⟨[], (List.append_nil _).symm⟩

@[simp] theorem normalize_concat (path : Path) (component : Component) :
    normalize (path ++ [component]) = push path.normalize component := by
  rw [normalize, List.foldl_append]
  rfl

theorem Below.normal (below : Below base path) (name : Bytes) :
    Below base (path ++ [.normal name]) := by
  obtain ⟨names, same⟩ := below
  refine ⟨names ++ [name], ?_⟩
  rw [normalize_concat, same, push, List.map_append, ← List.append_assoc]
  rfl

/-- Where two names lie below a base, the directory does. -/
theorem below_of_two {other : Bytes} (differ : name ≠ other)
    (below : Below base (path ++ [.normal name])) (below' : Below base (path ++ [.normal other])) :
    Below base path := by
  obtain ⟨names, same⟩ := below
  obtain ⟨names', same'⟩ := below'
  rw [normalize_concat, push] at same same'
  rcases List.eq_nil_or_concat' names with rfl | ⟨front, last, rfl⟩
  · -- the first name would be the base, and the second one a name in it
    rw [List.map_nil, List.append_nil] at same
    rw [← same, List.append_assoc] at same'
    have tail := List.append_cancel_left same'
    obtain ⟨first, -⟩ := List.cons.inj tail
    exact absurd (Component.normal.inj first).symm differ
  · refine ⟨front, ?_⟩
    rw [List.map_append, ← List.append_assoc] at same
    exact (List.append_inj' same rfl).1

/-- The directory a name is in does not lie below the name. -/
theorem not_below_above : ¬ Below (path ++ [.normal name]) path := by
  rintro ⟨names, same⟩
  rw [normalize_concat, push] at same
  simpa using congrArg List.length same

theorem not_below_parent : ¬ Below (path ++ [.normal name]) (path ++ [.parentDir]) := by
  rintro ⟨names, same⟩
  rw [normalize_concat, normalize_concat, push, push] at same
  split at same
  next =>
    have count := congrArg List.length same
    simp only [List.length_dropLast, List.length_append, List.length_cons, List.length_map] at count
    omega
  next => simpa using congrArg List.length same
  next =>
    rw [List.append_assoc] at same
    cases List.append_cancel_left same

/-- From below a base, a path that does not climb so far leads below that base. -/
theorem foldl_push_inside (base : Path) (names : List Bytes)
    (stays : inside names.length rel = true) : ∃ more : List Bytes,
      rel.foldl push (base ++ names.map .normal) = base ++ more.map .normal := by
  induction rel generalizing names with
  | nil => exact ⟨names, rfl⟩
  | cons component rest ih =>
      cases component with
      | rootDir => cases stays
      | curDir => exact ih names stays
      | normal name =>
          obtain ⟨more, same⟩ := ih (names ++ [name]) (by simpa [inside] using stays)
          refine ⟨more, ?_⟩
          rw [← same, List.map_append, ← List.append_assoc]
          rfl
      | parentDir =>
          rcases List.eq_nil_or_concat' names with rfl | ⟨names, last, rfl⟩
          · cases stays
          · obtain ⟨more, same⟩ := ih names (by simpa [inside] using stays)
            refine ⟨more, ?_⟩
            have up : push (base ++ (names ++ [last]).map .normal) .parentDir =
                base ++ names.map .normal := by
              rw [List.map_append, ← List.append_assoc]
              simp [push]
            rw [List.foldl_cons, up]
            exact same

/-- Joining a relative path goes on from the base. -/
theorem normalize_join (relative : rel.head? ≠ some .rootDir) :
    normalize (base.join rel) = rel.foldl push base.normalize := by
  have append : ∀ rest, normalize (base ++ rest) = rest.foldl push base.normalize :=
    fun rest => List.foldl_append
  cases rel with
  | nil => exact append []
  | cons component rest =>
      cases component with
      | rootDir => exact absurd rfl relative
      | curDir =>
          simp only [join]
          split
          next empty =>
            rw [empty]
            rfl
          next => exact append rest
      | parentDir => exact append _
      | normal => exact append _

/-- **A path that never climbs above its start stays below what it is joined to.** -/
theorem below_join (stays : inside 0 rel = true) : Below base (base.join rel) := by
  have relative : rel.head? ≠ some .rootDir := by
    intro rooted
    cases rel with
    | nil => cases rooted
    | cons component rest =>
        cases rooted
        cases stays
  obtain ⟨more, same⟩ := foldl_push_inside base.normalize [] stays
  refine ⟨more, ?_⟩
  rw [normalize_join relative, ← same, List.map_nil, List.append_nil]

/-! ## Joined paths -/

theorem mem_join {component : Component} (mem : component ∈ base.join rel) :
    component ∈ base ∨ component ∈ rel := by
  unfold join at mem
  split at mem
  next => exact .inr mem
  next =>
    split at mem
    next => exact .inr mem
    next => exact (List.mem_append.mp mem).imp_right (List.mem_cons_of_mem _)
  next => exact List.mem_append.mp mem

theorem join_concat (nonempty : rel ≠ []) (component : Component) :
    base.join (rel ++ [component]) = base.join rel ++ [component] := by
  obtain ⟨first, rest, rfl⟩ := List.exists_cons_of_ne_nil nonempty
  cases first with
  | rootDir => rfl
  | curDir =>
      simp only [List.cons_append, join]
      split
      next => rfl
      next => exact (List.append_assoc base rest _).symm
  | parentDir => exact (List.append_assoc base _ _).symm
  | normal => exact (List.append_assoc base _ _).symm

theorem join_concat_normal : base.join (rel ++ [.normal name]) = base.join rel ++ [.normal name] := by
  cases rel with
  | nil => exact congrArg (· ++ _) (List.append_nil base).symm
  | cons component rest => exact join_concat (List.cons_ne_nil _ _) _

end Path

end Cccp
