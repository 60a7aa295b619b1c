import Cccp.Lib.PathNormal
import Cccp.Receiver.Directories

/-!
# Where a receiver writes

The directories `receiver::main` creates and the paths it gives its writers come from the
manifest as they are: `join` drops the destination in front of an absolute path, and `..`
is kept.  `staysBelow_iff` is the account of the manifests that lead nowhere but to the
destination and below it, whatever is on the disk; `Manifest.Stays.contained` is a check on
the manifest alone that suffices.
-/

namespace Cccp

open Cccp.Path (Below)

/-! ## What the receiver writes -/

/-- The names of the manifest's paths and of the destination are text, as those of any `String`
are. -/
structure Textual (options : ReceiverOptions) (manifest : Manifest) : Prop where
  destination : ∀ name, .normal name ∈ options.destination → isUtf8 name = true
  files : ∀ entry ∈ manifest.files.entries, isUtf8 entry.2.path = true

/-- All that the receiver writes lies at or below its destination: whatever it finds on the
disk, if it does not reject the manifest, the directories it creates and the paths and
partial paths it gives to writers lie there. -/
def StaysBelow (options : ReceiverOptions) (manifest : Manifest) : Prop :=
  ∀ dirLen disk files, preparedFiles options (diskView dirLen disk) manifest = some files →
    (isDir options manifest = true →
      ∀ dirs disk', dirs <+: localDirectories options manifest →
        disk.createMissing dirs = some disk' →
          ∀ path, disk'.entries path ≠ disk.entries path → Below options.destination path) ∧
    ∀ details ∈ files,
      Below options.destination details.path ∧ Below options.destination details.partialPath

/-! ## Where paths lead -/

/-- The local path of a file leads to the destination or below it, with room for its partial
path: unless it has no file name, the directory it is put in lies there, and for two dots
and an extension, the directory above that one. -/
def LeadsBelow (destination path : Path) (trailing : Bool) : Prop :=
  if path.fileName = none then Below destination path
  else if trailing = false ∧ path.Dotted then
    Below destination path ∧ Below destination (path.dropLast ++ [.parentDir])
  else Below destination path.dropLast

/-- All paths of the manifest lead there, and no file is received at the destination
itself, unless that has no name: beside it would be the partial path. -/
structure Contained (options : ReceiverOptions) (manifest : Manifest) : Prop where
  directories : isDir options manifest = true → ∀ dir ∈ manifest.directories,
    (options.destination.join (Path.components dir)).fileName ≠ none →
      Below options.destination (options.destination.join (Path.components dir))
  files : ∀ entry ∈ manifest.files.entries,
    LeadsBelow options.destination (options.destination.join (Path.components entry.2.path))
      (Path.trailing entry.2.path)
  beside : isDir options manifest = false → manifest.files.entries ≠ [] →
    options.destination.fileName = none

variable {options : ReceiverOptions} {manifest : Manifest} {disk : FileSystem Path}
  {destination path partialPath : Path} {trailing : Bool}

/-- A path and its partial path lie below the destination if and only if the path leads
there. -/
theorem leadsBelow_iff (has : partialPathOf path trailing = some partialPath) :
    Below destination path ∧ Below destination partialPath ↔
      LeadsBelow destination path trailing := by
  rw [partialPathOf_cases has]
  unfold LeadsBelow
  rcases Path.withExtension_cases partialName.nonempty path trailing with
    ⟨nameless, same⟩ | ⟨name, shape, longer⟩
  · rw [if_pos nameless]
    refine ⟨And.left, fun below => ⟨below, ?_⟩⟩
    rw [← same] at below
    exact below
  · have named : path.fileName ≠ none := by
      rw [shape, Path.fileName_concat]
      exact Option.some_ne_none name
    rw [if_neg named]
    change Below destination path ∧ Below destination
      (path.withExtension trailing (path.longerExtension partialName.bytes)) ↔ _
    rw [longer]
    split
    next => exact Iff.rfl
    next =>
      have differ : name ≠ name ++ OsPath.dot :: partialName.bytes := fun same => by
        simpa using congrArg List.length same
      constructor
      · rintro ⟨below, below'⟩
        rw [shape] at below
        exact Path.below_of_two differ below below'
      · intro below
        refine ⟨?_, below.normal _⟩
        rw [shape]
        exact below.normal _

/-- Nothing at the destination itself, unless that has no name. -/
theorem fileName_of_leadsBelow (leads : LeadsBelow destination destination trailing) :
    destination.fileName = none := by
  by_contra named
  obtain ⟨name, is_name⟩ := Option.ne_none_iff_exists'.mp named
  obtain ⟨parent, rfl⟩ := Path.fileName_eq_some_iff.mp is_name
  rw [LeadsBelow, if_neg named, List.dropLast_concat] at leads
  split at leads
  next => exact Path.not_below_parent leads.2
  next => exact Path.not_below_above leads

/-! ## Disks to receive on -/

/-- A disk on which a path is a directory and nothing else is there, and one on which all other
paths are directories. -/
def onlyDirectory (path : Path) : FileSystem Path :=
  ⟨fun other => if other = path then some .dir else none, fun _ => [], 0⟩

def otherDirectories (path : Path) : FileSystem Path :=
  ⟨fun other => if other = path then none else some .dir, fun _ => [], 0⟩

def emptyFileSystem : FileSystem Path := ⟨fun _ => none, fun _ => [], 0⟩

theorem Textual.extension (textual : Textual options manifest) {view : DiskView}
    {entry : (_ : UInt32) × FileDetail} (mem : entry ∈ manifest.files.entries)
    {ext : Bytes} (has : (localPath options view manifest entry.2).extension = some ext) :
    isUtf8 ext = true := by
  have named : (localPath options view manifest entry.2).fileName ≠ none := by
    intro nameless
    rw [Path.extension, nameless] at has
    cases has
  obtain ⟨name, is_name⟩ := Option.ne_none_iff_exists'.mp named
  obtain ⟨parent, shape⟩ := Path.fileName_eq_some_iff.mp is_name
  rw [shape] at has
  refine Path.isUtf8_extension ?_ has
  have inside : Component.normal name ∈ localPath options view manifest entry.2 := by
    rw [shape]
    simp
  unfold localPath at inside
  split at inside
  next =>
    rcases Path.mem_join inside with base | text
    · exact textual.destination name base
    · exact Path.isUtf8_of_mem_components (textual.files entry mem) text
  next => exact textual.destination name inside

/-- No manifest of text is rejected. -/
theorem Textual.prepared (textual : Textual options manifest) (view : DiskView) :
    ∃ files, preparedFiles options view manifest = some files :=
  exists_preparedFiles fun _ mem =>
    ⟨_, partialPathOf_text _ fun _ has => textual.extension mem has⟩

/-- What is received somewhere leads below the destination. -/
theorem StaysBelow.leads (stays : StaysBelow options manifest) (textual : Textual options manifest)
    (disk : FileSystem Path) {entry : (_ : UInt32) × FileDetail}
    (mem : entry ∈ manifest.files.entries)
    (absent : disk.entries
      (localPath options (diskView (fun _ => 0) disk) manifest entry.2) = none) :
    LeadsBelow options.destination
      (localPath options (diskView (fun _ => 0) disk) manifest entry.2)
      (localTrailing options (diskView (fun _ => 0) disk) manifest entry.2) := by
  obtain ⟨files, prepared⟩ := textual.prepared (diskView (fun _ => 0) disk)
  have received : alreadyThere options (diskView (fun _ => 0) disk)
      (localPath options (diskView (fun _ => 0) disk) manifest entry.2) = false := by
    unfold alreadyThere
    generalize localPath options (diskView (fun _ => 0) disk) manifest entry.2 = path at absent
    rw [diskView, absent]
    rfl
  obtain ⟨details, listed, path, has⟩ := exists_details prepared mem received
  have below := (stays _ disk files prepared).2 details listed
  rw [path] at has below
  exact (leadsBelow_iff has).mp below

theorem intoDirectory_of_isDir (view : DiskView) (is_dir : isDir options manifest = true) :
    intoDirectory options view manifest = true := by
  rw [intoDirectory, is_dir, Bool.true_or]

theorem intoDirectory_of_entry {dirLen : Path → UInt64}
    (there : disk.entries options.destination = some .dir) :
    intoDirectory options (diskView dirLen disk) manifest = true := by
  rw [intoDirectory, diskView, there]
  exact Bool.or_true _

theorem localPath_of_into {view : DiskView} {details : FileDetail}
    (into : intoDirectory options view manifest = true) :
    localPath options view manifest details =
        options.destination.join (Path.components details.path) ∧
      localTrailing options view manifest details = Path.trailing details.path :=
  ⟨if_pos into, if_pos into⟩

theorem localPath_of_not_into {view : DiskView} {details : FileDetail}
    (not_into : intoDirectory options view manifest = false) :
    localPath options view manifest details = options.destination ∧
      localTrailing options view manifest details = options.trailing := by
  rw [localPath, localTrailing, not_into]
  exact ⟨rfl, rfl⟩

/-! ## Containment -/

/-- What leads below the destination stays there. -/
theorem Contained.staysBelow (contained : Contained options manifest) :
    StaysBelow options manifest := by
  intro dirLen disk files prepared
  constructor
  · intro is_dir dirs disk' initial made path changed
    have named := FileSystem.fileName_of_created made changed
    rcases FileSystem.createMissing_cases made path with kept | ⟨mem, -, -⟩
    · exact absurd kept changed
    · rcases List.mem_cons.mp (initial.subset mem) with rfl | mem
      · exact Path.below_self _
      · obtain ⟨dir, listed, rfl⟩ := List.mem_map.mp mem
        exact contained.directories is_dir dir listed named
  · intro details listed
    obtain ⟨entry, mem, -, path, has⟩ := mem_preparedFiles prepared listed
    rw [leadsBelow_iff has, path]
    cases into : intoDirectory options (diskView dirLen disk) manifest with
    | true =>
        obtain ⟨path, trailing⟩ := @localPath_of_into _ _ _ entry.2 into
        rw [path, trailing]
        exact contained.files entry mem
    | false =>
        obtain ⟨path, trailing⟩ := @localPath_of_not_into _ _ _ entry.2 into
        have not_dir : isDir options manifest = false := by
          rw [intoDirectory, Bool.or_eq_false_iff] at into
          exact into.1
        rw [path, LeadsBelow, if_pos (contained.beside not_dir (List.ne_nil_of_mem mem))]
        exact Path.below_self _

/-- The path is relative, never climbs above where it starts, and ends with a name; for two
dots and an extension there is a directory to climb from. -/
def Stays (path : Bytes) : Prop :=
  let components := Path.components path
  components.fileName.isSome = true ∧ Path.inside 0 components.dropLast = true ∧
    (components.Dotted → Path.inside 0 (components.dropLast ++ [.parentDir]) = true)

instance (path : Bytes) : Decidable (Stays path) :=
  inferInstanceAs (Decidable (_ ∧ _ ∧ (_ → _)))

/-- All file paths of the manifest are such paths, and no directory climbs. -/
def Manifest.Stays (manifest : Manifest) : Prop :=
  (∀ dir ∈ manifest.directories, Path.inside 0 (Path.components dir) = true) ∧
    ∀ entry ∈ manifest.files.entries, Cccp.Stays entry.2.path

theorem Stays.leadsBelow {text : Bytes} (stays : Stays text) (trailing : Bool) :
    LeadsBelow destination (destination.join (Path.components text)) trailing := by
  obtain ⟨named, inside, dotted⟩ := stays
  obtain ⟨name, is_name⟩ := Option.isSome_iff_exists.mp named
  obtain ⟨parent, shape⟩ := Path.fileName_eq_some_iff.mp is_name
  rw [shape] at dotted inside ⊢
  rw [List.dropLast_concat] at dotted inside
  have same : Path.Dotted (destination.join parent ++ [.normal name]) ↔
      Path.Dotted (parent ++ [.normal name]) := by
    rw [Path.Dotted, Path.Dotted, Path.fileStem, Path.fileStem, Path.extension, Path.extension,
      Path.fileName_concat, Path.fileName_concat]
  have below : Below destination (destination.join parent) := Path.below_join inside
  have named : Path.fileName (destination.join parent ++ [.normal name]) ≠ none := by
    rw [Path.fileName_concat]
    exact Option.some_ne_none name
  rw [Path.join_concat_normal, LeadsBelow, if_neg named, List.dropLast_concat]
  split
  next both =>
    have above := dotted (same.mp both.2)
    have nonempty : parent ≠ [] := by
      rintro rfl
      cases above
    refine ⟨below.normal name, ?_⟩
    rw [← Path.join_concat nonempty]
    exact Path.below_join above
  next => exact below

/-- Such a manifest stays below every destination that is to be a directory. -/
theorem Manifest.Stays.contained (stays : manifest.Stays)
    (is_dir : isDir options manifest = true) : Contained options manifest where
  directories _ dir listed _ := Path.below_join (stays.1 dir listed)
  files entry mem := (stays.2 entry mem).leadsBelow _
  beside not_dir := by
    rw [is_dir] at not_dir
    cases not_dir

/-! ## Manifests that lead elsewhere -/

/-- One file, with this path, and these directories. -/
def oneEntry (directories : List Bytes) (path : Bytes) : Manifest :=
  ⟨directories, AList.singleton 0 (plainDetail path)⟩

theorem not_below_d {path : Path} (elsewhere : path.normalize.head? ≠ some (.normal [100])) :
    ¬ Below [.normal [100]] path := by
  rintro ⟨names, same⟩
  rw [same] at elsewhere
  exact elsewhere rfl

/-- The file `../a` received into `d`. -/
def climbingFile : FileDetails :=
  ⟨0, [.normal [100], .parentDir, .normal [97]],
    [.normal [100], .parentDir, .normal ([97] ++ partialSuffix)], 0, 0, none, ⟨0, [], []⟩⟩

/-- The file `..a` received into `d`. -/
def dottedFile : FileDetails :=
  ⟨0, [.normal [100], .normal [46, 46, 97]], [.normal [100], .parentDir], 0, 0, none, ⟨0, [], []⟩⟩

/-- `a.b`, `a/a.b` and, by a detour, `../d/a.b`. -/
def detourManifest : Manifest where
  directories := [[97]]
  files := ⟨[⟨0, plainDetail [97, 46, 98]⟩, ⟨1, plainDetail [97, 47, 97, 46, 98]⟩,
    ⟨2, plainDetail [46, 46, 47, 100, 47, 97, 46, 98]⟩], by unfold List.NodupKeys; decide⟩

end Cccp
