import Cccp.Lib.FileSystem
import Cccp.Lib.OsPath

/-!
# Directories by path

`create_dir` where the names of a file system are paths: the parent of what is created has
to be a directory.  `createMissing` goes through a list of directories and creates those
that nothing has the name of.
-/

namespace Cccp

namespace FileSystem

/-- The path is a directory; the root and the current directory always are. -/
def IsDirectory (fs : FileSystem Path) (path : Path) : Prop :=
  path = [] ∨ path = [.rootDir] ∨ path = [.curDir] ∨ fs.entries path = some .dir

instance (fs : FileSystem Path) (path : Path) : Decidable (fs.IsDirectory path) :=
  inferInstanceAs (Decidable (_ ∨ _ ∨ _ ∨ _))

/-- `create_dir`: the path ends with a name, which is not taken, in a directory. -/
def mkdir (fs : FileSystem Path) (path : Path) : Option (FileSystem Path) :=
  match path.fileName with
  | some _ => if fs.IsDirectory path.dropLast then fs.createDir path else none
  | none => none

/-- Create each of the directories that does not exist, in order. -/
def createMissing (fs : FileSystem Path) (dirs : List Path) : Option (FileSystem Path) :=
  dirs.foldlM (fun fs dir => if fs.exists_ dir then some fs else fs.mkdir dir) fs

variable {fs fs' : FileSystem Path} {path : Path} {dirs : List Path}

theorem mkdir_cases (made : fs.mkdir path = some fs') :
    fs.entries path = none ∧ fs' = fs.setEntry path (some .dir) := by
  unfold mkdir at made
  split at made
  next =>
    split at made
    next =>
      unfold createDir at made
      split at made
      next => cases made
      next absent =>
        cases made
        exact ⟨exists_eq_false.mp (by simpa using absent), rfl⟩
    next => cases made
  next => cases made

theorem createMissing_cons {dir : Path} (made : fs.createMissing (dir :: dirs) = some fs') :
    ∃ next, (if fs.exists_ dir then some fs else fs.mkdir dir) = some next ∧
      next.createMissing dirs = some fs' := by
  rw [createMissing, List.foldlM_cons] at made
  exact Option.bind_eq_some_iff.mp made

/-- An entry stays, or it is one of the missing directories. -/
theorem createMissing_cases (made : fs.createMissing dirs = some fs') (path : Path) :
    fs'.entries path = fs.entries path ∨
      path ∈ dirs ∧ fs.entries path = none ∧ fs'.entries path = some .dir := by
  induction dirs generalizing fs with
  | nil =>
      cases made
      exact .inl rfl
  | cons dir dirs ih =>
      obtain ⟨next, first, made⟩ := createMissing_cons made
      have rest := (ih made).imp_right fun new => And.imp_left (List.mem_cons_of_mem dir) new
      split at first
      next =>
        cases first
        exact rest
      next =>
        obtain ⟨absent, rfl⟩ := mkdir_cases first
        by_cases same : path = dir
        · subst same
          right
          refine ⟨List.mem_cons_self, absent, ?_⟩
          rcases rest with kept | ⟨-, -, new⟩
          · exact kept.trans (entries_setEntry _)
          · exact new
        · rwa [entries_setEntry_ne _ same] at rest

/-- What is created ends with a name. -/
theorem fileName_of_created (made : fs.createMissing dirs = some fs')
    (changed : fs'.entries path ≠ fs.entries path) : path.fileName ≠ none := by
  induction dirs generalizing fs with
  | nil =>
      cases made
      exact absurd rfl changed
  | cons dir dirs ih =>
      obtain ⟨next, first, made⟩ := createMissing_cons made
      by_cases later : fs'.entries path = next.entries path
      · split at first
        next =>
          cases first
          exact absurd later changed
        next =>
          have named : dir.fileName ≠ none := by
            intro nameless
            rw [mkdir, nameless] at first
            cases first
          obtain ⟨-, rfl⟩ := mkdir_cases first
          by_cases same : path = dir
          · exact same ▸ named
          · rw [entries_setEntry_ne _ same] at later
            exact absurd later changed
      · exact ih made later

/-- Every path is a directory, with the exception of one that may be missing. -/
def OthersExist (fs : FileSystem Path) (path : Path) : Prop :=
  ∀ other, other ≠ path → fs.entries other = some .dir

theorem OthersExist.mkdir {parent : Path} {name : Bytes}
    (others : fs.OthersExist (parent ++ [.normal name]))
    (absent : fs.exists_ (parent ++ [.normal name]) = false) :
    fs.mkdir (parent ++ [.normal name]) =
      some (fs.setEntry (parent ++ [.normal name]) (some .dir)) := by
  have above : fs.IsDirectory parent :=
    .inr (.inr (.inr (others parent fun same => by simpa using congrArg List.length same)))
  rw [FileSystem.mkdir, Path.fileName_concat, List.dropLast_concat]
  simp only [if_pos above, createDir, absent, Bool.false_eq_true, if_false]

/-- A path of the list that ends with a name is there afterwards. -/
theorem OthersExist.createMissing (others : fs.OthersExist path) (named : path.fileName ≠ none)
    (mem : path ∈ dirs ∨ fs.entries path ≠ none) :
    ∃ fs', fs.createMissing dirs = some fs' ∧ fs'.entries path ≠ none := by
  induction dirs generalizing fs with
  | nil => exact ⟨fs, rfl, mem.resolve_left List.not_mem_nil⟩
  | cons dir dirs ih =>
      have go : ∀ next, (if fs.exists_ dir then some fs else fs.mkdir dir) = some next →
          next.OthersExist path → (path ∈ dirs ∨ next.entries path ≠ none) →
            ∃ fs', fs.createMissing (dir :: dirs) = some fs' ∧ fs'.entries path ≠ none := by
        intro next first others' mem'
        obtain ⟨fs', made, there⟩ := ih others' mem'
        refine ⟨fs', ?_, there⟩
        rw [FileSystem.createMissing, List.foldlM_cons]
        exact Option.bind_eq_some_iff.mpr ⟨next, first, made⟩
      cases there : fs.exists_ dir with
      | true =>
          refine go fs (if_pos there) others ?_
          by_cases old : fs.entries path = none
          · have first : path ≠ dir := by
              rintro rfl
              cases (exists_eq_false.mpr old).symm.trans there
            exact .inl ((List.mem_cons.mp (mem.resolve_right (absurd old))).resolve_left first)
          · exact .inr old
      | false =>
          -- it is the path that is missing
          obtain rfl : dir = path := by
            by_contra differ
            cases (exists_eq_false.mp there).symm.trans (others dir differ)
          obtain ⟨name, is_name⟩ := Option.ne_none_iff_exists'.mp named
          obtain ⟨parent, rfl⟩ := Path.fileName_eq_some_iff.mp is_name
          refine go _ ((if_neg (by rw [there]; decide)).trans (others.mkdir there)) ?_ (.inr ?_)
          · intro other differ
            rw [entries_setEntry_ne _ differ]
            exact others other differ
          · rw [entries_setEntry]
            nofun

/-- Afterwards all of them exist. -/
theorem createMissing_exists (made : fs.createMissing dirs = some fs') :
    ∀ dir ∈ dirs, fs'.exists_ dir = true := by
  induction dirs generalizing fs with
  | nil => nofun
  | cons dir dirs ih =>
      obtain ⟨next, first, rest⟩ := createMissing_cons made
      intro other mem
      rcases List.mem_cons.mp mem with rfl | mem
      · have there : next.exists_ other = true := by
          split at first
          next found =>
            cases first
            exact found
          next =>
            obtain ⟨-, rfl⟩ := mkdir_cases first
            rw [exists_, entries_setEntry]
            rfl
        rcases createMissing_cases rest other with kept | ⟨-, -, new⟩
        · rwa [exists_, kept]
        · rw [exists_, new]
          rfl
      · exact ih rest other mem

theorem IsDirectory.createMissing (dir : fs.IsDirectory path)
    (made : fs.createMissing dirs = some fs') : fs'.IsDirectory path := by
  refine dir.imp_right (Or.imp_right (Or.imp_right fun entry => ?_))
  rcases createMissing_cases made path with kept | ⟨-, -, new⟩
  · exact kept.trans entry
  · exact new

/-- One of the directories is a directory afterwards if nothing else had its name. -/
theorem isDirectory_createMissing_iff (made : fs.createMissing dirs = some fs')
    (mem : path ∈ dirs) :
    fs'.IsDirectory path ↔ fs.IsDirectory path ∨ fs.entries path = none := by
  constructor
  · rcases createMissing_cases made path with kept | ⟨-, absent, -⟩
    · exact fun dir => .inl (by rwa [IsDirectory, kept] at dir)
    · exact fun _ => .inr absent
  · rintro (dir | absent)
    · exact dir.createMissing made
    · have there := createMissing_exists made path mem
      rcases createMissing_cases made path with kept | ⟨-, -, new⟩
      · rw [exists_, kept, absent] at there
        cases there
      · exact .inr (.inr (.inr new))

theorem createMissing_files (made : fs.createMissing dirs = some fs') :
    fs'.contents = fs.contents ∧ fs'.fresh = fs.fresh := by
  induction dirs generalizing fs with
  | nil =>
      cases made
      exact ⟨rfl, rfl⟩
  | cons dir dirs ih =>
      obtain ⟨next, first, rest⟩ := createMissing_cons made
      obtain ⟨contents, fresh⟩ := ih rest
      split at first
      next =>
        cases first
        exact ⟨contents, fresh⟩
      next =>
        obtain ⟨-, rfl⟩ := mkdir_cases first
        exact ⟨contents, fresh⟩

/-- New directories are no files. -/
theorem read_createMissing (made : fs.createMissing dirs = some fs') (path : Path) :
    fs'.read path = fs.read path := by
  rw [read, read, (createMissing_files made).1]
  rcases createMissing_cases made path with kept | ⟨-, absent, new⟩
  · rw [kept]
  · rw [absent, new]

theorem Apart.createMissing {names : Path → Prop} (apart : Apart fs names)
    (made : fs.createMissing dirs = some fs') : Apart fs' names := by
  have before : ∀ {name inode}, fs'.entries name = some (.file inode) →
      fs.entries name = some (.file inode) := by
    intro name inode named
    rcases createMissing_cases made name with kept | ⟨-, -, new⟩
    · exact kept.symm.trans named
    · cases new.symm.trans named
  constructor
  · intro name other mem mem' ne inode named named'
    exact apart.separate name other mem mem' ne inode (before named) (before named')
  · intro name mem inode named
    rw [(createMissing_files made).2]
    exact apart.made name mem inode (before named)

end FileSystem

end Cccp
