import Cccp.Lib.Bytes

/-!
# Names, files and open handles

A file system as far as concurrent tasks can tell it: names denote files or
directories, a file is an inode with contents, and an open handle is the inode, so
that it outlives the name.  A handle opened for appending writes at the end of the
file, wherever it was seeked to.

Every operation has a lemma for what it touches and a frame lemma for the rest.
-/

namespace Cccp

/-- What a name denotes. -/
inductive Node where
  | dir
  | file (inode : Nat)
  deriving DecidableEq

structure FileSystem (Name : Type) where
  entries : Name → Option Node
  contents : Nat → Bytes
  fresh : Nat

namespace FileSystem

variable {Name : Type}

def exists_ (fs : FileSystem Name) (name : Name) : Bool :=
  (fs.entries name).isSome

/-- The contents of the file a name denotes. -/
def read (fs : FileSystem Name) (name : Name) : Option Bytes :=
  match fs.entries name with
  | some (.file inode) => some (fs.contents inode)
  | _ => none

/-- Write to a handle opened for appending. -/
def append (fs : FileSystem Name) (handle : Nat) (bytes : Bytes) : FileSystem Name :=
  { fs with contents := fun inode =>
      if inode = handle then fs.contents inode ++ bytes else fs.contents inode }

variable {fs fs' : FileSystem Name} {name other source target : Name} {handle inode : Nat}
  {bytes : Bytes}

theorem exists_eq_false : fs.exists_ name = false ↔ fs.entries name = none := by
  rw [exists_, Option.isSome_eq_false_iff, Option.isNone_iff_eq_none]

@[simp] theorem entries_append : (fs.append handle bytes).entries = fs.entries := rfl

@[simp] theorem contents_append :
    (fs.append handle bytes).contents handle = fs.contents handle ++ bytes :=
  if_pos rfl

theorem read_of_entries (named : fs.entries name = some (.file inode)) :
    fs.read name = some (fs.contents inode) := by
  rw [read, named]

/-- The name denotes what it denoted, with the same contents. -/
structure Keeps (before after : FileSystem Name) (name : Name) : Prop where
  entry : after.entries name = before.entries name
  contents : ∀ inode, before.entries name = some (.file inode) →
    after.contents inode = before.contents inode

/-- The file a name denotes, if any, has been made. -/
def Made (fs : FileSystem Name) (name : Name) : Prop :=
  ∀ inode, fs.entries name = some (.file inode) → inode < fs.fresh

theorem Keeps.made (keeps : Keeps fs fs' name) (made : Made fs name)
    (later : fs.fresh ≤ fs'.fresh) : Made fs' name :=
  fun inode named => Nat.lt_of_lt_of_le (made inode (keeps.entry.symm.trans named)) later

theorem Keeps.refl (fs : FileSystem Name) (name : Name) : Keeps fs fs name :=
  ⟨rfl, fun _ _ => rfl⟩

theorem Keeps.trans {fs'' : FileSystem Name} (first : Keeps fs fs' name)
    (second : Keeps fs' fs'' name) : Keeps fs fs'' name := by
  refine ⟨second.entry.trans first.entry, fun inode named => ?_⟩
  rw [second.contents inode (first.entry.trans named), first.contents inode named]

theorem Keeps.read (keeps : Keeps fs fs' name) : fs'.read name = fs.read name := by
  rw [FileSystem.read, FileSystem.read, keeps.entry]
  split
  next inode named => rw [keeps.contents inode named]
  next => rfl

/-- A handle of another file is written to. -/
theorem keeps_append (apart : fs.entries name ≠ some (.file handle)) :
    Keeps fs (fs.append handle bytes) name := by
  refine ⟨rfl, fun inode named => if_neg ?_⟩
  rintro rfl
  exact apart named

/-- No two of the names denote the same file, and their files have been made. -/
structure Apart (fs : FileSystem Name) (names : Name → Prop) : Prop where
  separate : ∀ name other, names name → names other → name ≠ other →
    ∀ inode, fs.entries name = some (.file inode) → fs.entries other ≠ some (.file inode)
  made : ∀ name, names name → Made fs name

variable {names : Name → Prop}

theorem Apart.append (apart : Apart fs names) (handle : Nat) (bytes : Bytes) :
    Apart (fs.append handle bytes) names :=
  ⟨apart.separate, apart.made⟩

/-- A write to the file of one of the names leaves the others as they are. -/
theorem Apart.keeps_append (apart : Apart fs names) (mem : names name) (mem' : names other)
    (named : fs.entries name = some (.file handle)) (ne : other ≠ name) (bytes : Bytes) :
    Keeps fs (fs.append handle bytes) other :=
  FileSystem.keeps_append (apart.separate name other mem mem' ne.symm handle named)

variable [DecidableEq Name]

def setEntry (fs : FileSystem Name) (name : Name) (node : Option Node) : FileSystem Name :=
  { fs with entries := fun other => if other = name then node else fs.entries other }

/-- Open for appending, creating the file if nothing has the name; a directory cannot
be opened. -/
def openAppend (fs : FileSystem Name) (name : Name) : Option (Nat × FileSystem Name) :=
  match fs.entries name with
  | some (.file inode) => some (inode, fs)
  | some .dir => none
  | none =>
      some (fs.fresh,
        { entries := fun other => if other = name then some (.file fs.fresh)
            else fs.entries other
          contents := fun inode => if inode = fs.fresh then [] else fs.contents inode
          fresh := fs.fresh + 1 })

/-- Remove a file; fails on a directory and on a name that denotes nothing. -/
def remove (fs : FileSystem Name) (name : Name) : Option (FileSystem Name) :=
  match fs.entries name with
  | some (.file _) => some (fs.setEntry name none)
  | _ => none

/-- Rename a file, replacing the file that had the new name; fails if the new name is a
directory. -/
def rename (fs : FileSystem Name) (source target : Name) : Option (FileSystem Name) :=
  match fs.entries source with
  | some (.file inode) =>
      if fs.entries target = some .dir then none
      else some ((fs.setEntry source none).setEntry target (some (.file inode)))
  | _ => none

/-- Create a directory; fails if the name is taken. -/
def createDir (fs : FileSystem Name) (name : Name) : Option (FileSystem Name) :=
  if fs.exists_ name then none else some (fs.setEntry name (some .dir))

@[simp] theorem entries_setEntry (node : Option Node) :
    (fs.setEntry name node).entries name = node :=
  if_pos rfl

theorem entries_setEntry_ne (node : Option Node) (ne : other ≠ name) :
    (fs.setEntry name node).entries other = fs.entries other :=
  if_neg ne

@[simp] theorem contents_setEntry (node : Option Node) :
    (fs.setEntry name node).contents = fs.contents := rfl

/-! ## Opening -/

theorem openAppend_old (old : fs.entries name = some (.file inode)) :
    fs.openAppend name = some (inode, fs) := by
  rw [openAppend, old]

/-- A file that had no name is opened empty. -/
theorem contents_openAppend_new (new : fs.entries name = none)
    (opened : fs.openAppend name = some (handle, fs')) : fs'.contents handle = [] := by
  rw [openAppend, new] at opened
  cases opened
  exact if_pos rfl

theorem entries_openAppend (opened : fs.openAppend name = some (handle, fs')) :
    fs'.entries name = some (.file handle) := by
  unfold openAppend at opened
  split at opened
  next old =>
    cases opened
    exact old
  next => cases opened
  next =>
    cases opened
    exact if_pos rfl

theorem entries_openAppend_ne (opened : fs.openAppend name = some (handle, fs'))
    (ne : other ≠ name) : fs'.entries other = fs.entries other := by
  unfold openAppend at opened
  split at opened
  next =>
    cases opened
    rfl
  next => cases opened
  next =>
    cases opened
    exact if_neg ne

/-- Inodes yet to be made have no name. -/
theorem keeps_openAppend (opened : fs.openAppend name = some (handle, fs')) (ne : other ≠ name)
    (made : Made fs other) : Keeps fs fs' other := by
  refine ⟨entries_openAppend_ne opened ne, fun inode named => ?_⟩
  unfold openAppend at opened
  split at opened
  next =>
    cases opened
    rfl
  next => cases opened
  next =>
    cases opened
    exact if_neg (Nat.ne_of_lt (made inode named))

theorem fresh_openAppend (opened : fs.openAppend name = some (handle, fs')) :
    fs.fresh ≤ fs'.fresh := by
  unfold openAppend at opened
  split at opened
  next =>
    cases opened
    exact Nat.le_refl _
  next => cases opened
  next =>
    cases opened
    exact Nat.le_succ _

theorem made_openAppend (opened : fs.openAppend name = some (handle, fs'))
    (made : Made fs name) : Made fs' name := by
  intro inode named
  obtain rfl : inode = handle :=
    Node.file.inj (Option.some.inj (named.symm.trans (entries_openAppend opened)))
  unfold openAppend at opened
  split at opened
  next old =>
    cases opened
    exact made inode old
  next => cases opened
  next =>
    cases opened
    exact Nat.lt_succ_self _

/-- What is opened is not the file of a name with another file. -/
theorem openAppend_apart (opened : fs.openAppend name = some (handle, fs')) (ne : other ≠ name)
    (made : Made fs other) (apart : ∀ inode, fs.entries name = some (.file inode) →
      fs.entries other ≠ some (.file inode)) : fs'.entries other ≠ some (.file handle) := by
  rw [entries_openAppend_ne opened ne]
  unfold openAppend at opened
  split at opened
  next old =>
    cases opened
    exact apart handle old
  next => cases opened
  next =>
    cases opened
    exact fun named => Nat.lt_irrefl _ (made _ named)

/-- A file is opened with the contents it has. -/
theorem contents_openAppend (opened : fs.openAppend name = some (handle, fs')) :
    fs'.contents handle = (fs.read name).getD [] := by
  rw [FileSystem.read]
  unfold openAppend at opened
  split at opened
  next named =>
    cases opened
    rw [named]
    rfl
  next => cases opened
  next absent =>
    cases opened
    rw [absent]
    exact if_pos rfl

/-! ## Removing and renaming -/

theorem entries_remove (removed : fs.remove name = some fs') : fs'.entries name = none := by
  rw [remove] at removed
  split at removed
  next =>
    cases removed
    exact entries_setEntry none
  next => cases removed

theorem entries_remove_ne (removed : fs.remove name = some fs') (ne : other ≠ name) :
    fs'.entries other = fs.entries other := by
  rw [remove] at removed
  split at removed
  next =>
    cases removed
    exact entries_setEntry_ne none ne
  next => cases removed

theorem keeps_remove (removed : fs.remove name = some fs') (ne : other ≠ name) :
    Keeps fs fs' other := by
  refine ⟨entries_remove_ne removed ne, fun inode _ => ?_⟩
  rw [remove] at removed
  split at removed
  next =>
    cases removed
    rfl
  next => cases removed

theorem fresh_remove (removed : fs.remove name = some fs') : fs'.fresh = fs.fresh := by
  rw [remove] at removed
  split at removed
  next =>
    cases removed
    rfl
  next => cases removed

theorem rename_cases (renamed : fs.rename source target = some fs') :
    ∃ inode, fs.entries source = some (.file inode) ∧
      fs' = (fs.setEntry source none).setEntry target (some (.file inode)) := by
  unfold rename at renamed
  split at renamed
  next inode named =>
    split at renamed
    next => cases renamed
    next =>
      cases renamed
      exact ⟨inode, named, rfl⟩
  next => cases renamed

theorem entries_rename_source (renamed : fs.rename source target = some fs')
    (ne : source ≠ target) : fs'.entries source = none := by
  obtain ⟨inode, -, rfl⟩ := rename_cases renamed
  rw [entries_setEntry_ne _ ne, entries_setEntry]

theorem made_rename (renamed : fs.rename source target = some fs') (made : Made fs source) :
    Made fs' target := by
  obtain ⟨inode, named, rfl⟩ := rename_cases renamed
  intro other named'
  rw [entries_setEntry] at named'
  cases named'
  exact made inode named

/-- A renamed file is read under its new name. -/
theorem read_rename (renamed : fs.rename source target = some fs') :
    fs'.read target = fs.read source := by
  obtain ⟨inode, named, rfl⟩ := rename_cases renamed
  rw [read_of_entries named, read_of_entries (entries_setEntry _)]
  rfl

theorem entries_rename_ne (renamed : fs.rename source target = some fs')
    (ne : other ≠ source) (ne' : other ≠ target) : fs'.entries other = fs.entries other := by
  obtain ⟨inode, -, rfl⟩ := rename_cases renamed
  rw [entries_setEntry_ne _ ne', entries_setEntry_ne _ ne]

theorem keeps_rename (renamed : fs.rename source target = some fs')
    (ne : other ≠ source) (ne' : other ≠ target) : Keeps fs fs' other := by
  refine ⟨entries_rename_ne renamed ne ne', fun inode _ => ?_⟩
  obtain ⟨_, -, rfl⟩ := rename_cases renamed
  rfl

/-! ## Directories and success -/

theorem file_ne_dir {inode : Nat} : some (Node.file inode) ≠ some .dir := by
  intro same
  cases same

/-- Changing an entry from one that is no directory to another makes and removes none. -/
theorem dir_setEntry {node : Option Node} (before : fs.entries name ≠ some .dir)
    (after : node ≠ some .dir) (other : Name) :
    (fs.setEntry name node).entries other = some .dir ↔ fs.entries other = some .dir := by
  rcases eq_or_ne other name with rfl | ne
  · rw [entries_setEntry]
    exact iff_of_false after before
  · rw [entries_setEntry_ne _ ne]

theorem dir_openAppend (opened : fs.openAppend name = some (handle, fs')) (other : Name) :
    fs'.entries other = some .dir ↔ fs.entries other = some .dir := by
  rcases eq_or_ne other name with rfl | ne
  · rw [entries_openAppend opened]
    refine iff_of_false file_ne_dir fun dir => ?_
    rw [openAppend, dir] at opened
    cases opened
  · rw [entries_openAppend_ne opened ne]

theorem dir_remove (removed : fs.remove name = some fs') (other : Name) :
    fs'.entries other = some .dir ↔ fs.entries other = some .dir := by
  rw [remove] at removed
  split at removed
  next inode named =>
    cases removed
    exact dir_setEntry (named ▸ file_ne_dir) (Option.some_ne_none _).symm other
  next => cases removed

theorem dir_rename (renamed : fs.rename source target = some fs') (other : Name) :
    fs'.entries other = some .dir ↔ fs.entries other = some .dir := by
  unfold rename at renamed
  split at renamed
  next inode named =>
    split at renamed
    next => cases renamed
    next free =>
      cases renamed
      have gone : ∀ other, (fs.setEntry source none).entries other = some .dir ↔
          fs.entries other = some .dir :=
        dir_setEntry (named ▸ file_ne_dir) (Option.some_ne_none _).symm
      rw [dir_setEntry (fun dir => free ((gone _).mp dir)) file_ne_dir, gone]
  next => cases renamed

/-- What is not a directory can be opened. -/
theorem exists_openAppend (free : fs.entries name ≠ some .dir) :
    ∃ handle fs', fs.openAppend name = some (handle, fs') := by
  cases entry : fs.entries name with
  | none => exact ⟨_, _, by rw [openAppend, entry]⟩
  | some node =>
      cases node with
      | dir => exact absurd entry free
      | file inode => exact ⟨inode, fs, openAppend_old entry⟩

/-- A file can be given any name that is not that of a directory. -/
theorem exists_rename (read : fs.read source = some bytes) (free : fs.entries target ≠ some .dir) :
    ∃ fs', fs.rename source target = some fs' := by
  unfold FileSystem.read at read
  split at read
  next inode named => exact ⟨_, by rw [rename, named]; exact if_neg free⟩
  next => cases read

/-! ## Keeping files apart -/

theorem Apart.openAppend (apart : Apart fs names)
    (opened : fs.openAppend name = some (handle, fs')) : Apart fs' names := by
  rw [FileSystem.openAppend] at opened
  split at opened
  next =>
    cases opened
    exact apart
  next => cases opened
  next =>
    cases opened
    -- a new file has an inode that no name denotes yet
    have unused : ∀ name, names name → fs.entries name ≠ some (.file fs.fresh) :=
      fun name mem named => Nat.lt_irrefl _ (apart.made name mem _ named)
    refine ⟨fun first second mem mem' ne inode named named' => ?_, fun first mem inode named => ?_⟩
    · simp only at named named'
      split at named
      next same =>
        cases named
        rw [if_neg fun same' => ne (same.trans same'.symm)] at named'
        exact unused second mem' named'
      next =>
        split at named'
        next =>
          cases named'
          exact unused first mem named
        next => exact apart.separate first second mem mem' ne inode named named'
    · simp only at named
      split at named
      next =>
        cases named
        exact Nat.lt_succ_self _
      next => exact Nat.lt_succ_of_lt (apart.made first mem inode named)

theorem Apart.rename (apart : Apart fs names) (mem : names source)
    (renamed : fs.rename source target = some fs') : Apart fs' names := by
  have others : ∀ {name}, name ≠ source → name ≠ target →
      fs'.entries name = fs.entries name := entries_rename_ne renamed
  obtain ⟨inode, named, rfl⟩ := rename_cases renamed
  -- what a name denotes now, one of the names denoted before
  have before : ∀ name, names name → ∀ inode',
      ((fs.setEntry source none).setEntry target (some (.file inode))).entries name =
        some (.file inode') →
      (name = target ∧ inode' = inode) ∨
        name ≠ source ∧ name ≠ target ∧ fs.entries name = some (.file inode') := by
    intro name _ inode' denotes
    by_cases isTarget : name = target
    · rw [isTarget, entries_setEntry] at denotes
      cases denotes
      exact .inl ⟨isTarget, rfl⟩
    · have isSource : name ≠ source := by
        rintro rfl
        rw [entries_setEntry_ne _ isTarget, entries_setEntry] at denotes
        cases denotes
      rw [others isSource isTarget] at denotes
      exact .inr ⟨isSource, isTarget, denotes⟩
  refine ⟨fun first second mem₁ mem₂ ne inode' denotes denotes' => ?_,
    fun first mem₁ inode' denotes => ?_⟩
  · rcases before first mem₁ inode' denotes with ⟨rfl, rfl⟩ | ⟨isSource, -, old⟩
    · rcases before second mem₂ _ denotes' with ⟨same, -⟩ | ⟨isSource, -, old⟩
      · exact ne same.symm
      · exact apart.separate source second mem mem₂ isSource.symm _ named old
    · rcases before second mem₂ _ denotes' with ⟨-, rfl⟩ | ⟨-, -, old'⟩
      · exact apart.separate source first mem mem₁ isSource.symm _ named old
      · exact apart.separate first second mem₁ mem₂ ne _ old old'
  · rcases before first mem₁ inode' denotes with ⟨-, rfl⟩ | ⟨-, -, old⟩
    · exact apart.made source mem _ named
    · exact apart.made first mem₁ _ old

end FileSystem

end Cccp
