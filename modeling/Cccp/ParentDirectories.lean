import Cccp.Lib.PathNormal
import Cccp.Receiver.Directories
import Cccp.Sender.Manifest

/-!
# Parent directories

What the sender lists in a manifest and what the receiver makes of it: every file is
received in a directory that is listed, or in the destination.  The receiver creates them
when `is_dir` is set, but it also puts a file under a destination that happens to be a
directory; and what exists counts as a directory.  `parents_exist_iff` is the account of
when the parent directory of every partial path exists afterwards.
-/

namespace Cccp

variable {sender : ManifestOptions} {hash : Bytes → Bytes} {drawn : Nat → Bytes} {source : Source}
  {options : ReceiverOptions} {manifest : Manifest} {disk disk' : FileSystem Path}
  {files : List FileDetails} {dirLen : Path → UInt64}

/-- Under the destination, a file is received in one of the local directories. -/
theorem dropLast_localPath_mem (built : buildManifest sender hash drawn source = some manifest)
    {view : DiskView} (directory : intoDirectory options view manifest = true)
    {entry : (_ : UInt32) × FileDetail} (mem : entry ∈ manifest.files.entries) :
    (localPath options view manifest entry.2).dropLast ∈ localDirectories options manifest := by
  obtain ⟨names, name, path, parent⟩ := mem_buildManifest built mem
  have components : Path.components entry.2.path =
      (names.map fun name => .normal (toStringLossy name.bytes)) ++
        [.normal (toStringLossy name.bytes)] := by
    rw [path, components_textOf (by simp), List.map_append]
    rfl
  rw [localPath, if_pos directory, components, Path.join_concat_normal, List.dropLast_concat]
  rcases parent with rfl | listed
  · exact List.mem_cons.mpr (.inl (List.append_nil _))
  · by_cases top : names = []
    · rw [top]
      exact List.mem_cons.mpr (.inl (List.append_nil _))
    · refine List.mem_cons_of_mem _ (List.mem_map.mpr ⟨_, listed, ?_⟩)
      rw [components_textOf top]

/-- The directory a file is received in is there, or nothing is and `is_dir` is set. -/
def ParentReady (dirLen : Path → UInt64) (options : ReceiverOptions) (disk : FileSystem Path)
    (manifest : Manifest) (details : FileDetail) : Prop :=
  let parent := (localPath options (diskView dirLen disk) manifest details).dropLast
  disk.IsDirectory parent ∨ isDir options manifest = true ∧ disk.entries parent = none

/-- A parent directory exists afterwards if it was ready. -/
theorem isDirectory_parent_iff (built : buildManifest sender hash drawn source = some manifest)
    (created : createDirectories options manifest disk = some disk')
    {entry : (_ : UInt32) × FileDetail} (mem : entry ∈ manifest.files.entries) :
    disk'.IsDirectory (localPath options (diskView dirLen disk) manifest entry.2).dropLast ↔
      ParentReady dirLen options disk manifest entry.2 := by
  unfold createDirectories at created
  unfold ParentReady
  split at created
  next is_dir =>
    have directory : intoDirectory options (diskView dirLen disk) manifest = true := by
      rw [intoDirectory, is_dir, Bool.true_or]
    rw [FileSystem.isDirectory_createMissing_iff created (dropLast_localPath_mem built directory mem)]
    exact or_congr_right (and_iff_right is_dir).symm
  next not_dir =>
    cases created
    exact (or_iff_left fun new => not_dir new.1).symm

/-- **The parent directory of every partial path exists** after the directories were
created if and only if that of every file that is not there already was ready. -/
theorem parents_exist_iff (built : buildManifest sender hash drawn source = some manifest)
    (prepared : preparedFiles options (diskView dirLen disk) manifest = some files)
    (created : createDirectories options manifest disk = some disk') :
    (∀ details ∈ files, disk'.IsDirectory details.partialPath.dropLast) ↔
      ∀ entry ∈ manifest.files.entries,
        alreadyThere options (diskView dirLen disk)
            (localPath options (diskView dirLen disk) manifest entry.2) = false →
          ParentReady dirLen options disk manifest entry.2 := by
  constructor
  · intro exist entry mem absent
    rw [← isDirectory_parent_iff built created mem]
    obtain ⟨details, listed, path, has⟩ := exists_details prepared mem absent
    rw [← path, ← dropLast_partialPathOf has]
    exact exist details listed
  · intro ready details listed
    obtain ⟨entry, mem, absent, path, has⟩ := mem_preparedFiles prepared listed
    rw [dropLast_partialPathOf has, path, isDirectory_parent_iff built created mem]
    exact ready entry mem absent

/-! ## A single nested file -/

def osName (byte : UInt8) (is_name : IsName [byte]) : OsName := ⟨[byte], is_name⟩

/-- The directory `s` with the file `x` in it. -/
def nestedListing : Listing :=
  .dir (osName 115 ⟨by decide, by decide, by decide, by decide⟩)
    (.file (osName 120 ⟨by decide, by decide, by decide, by decide⟩) [1] .nil) .nil

/-- A source directory with nothing else. -/
def nestedSource : Source := ⟨[.normal [99]], .dir nestedListing, nofun⟩

def recursively : ManifestOptions := ⟨true, false, ⟨0, [], []⟩⟩

/-- The manifest has the directory `s` and the file `s/x`. -/
def nestedManifest : Manifest :=
  ⟨[[115]], AList.singleton 0 ⟨[115, 47, 120], 1, none, ⟨0, [], []⟩⟩⟩

theorem built_nestedManifest :
    buildManifest recursively id (fun _ => []) nestedSource = some nestedManifest := by
  rfl

/-- The directory `d`, empty. -/
def emptyD : FileSystem Path :=
  ⟨fun path => if path = [.normal [100]] then some .dir else none, fun _ => [], 0⟩

/-- What the receiver is to write for the file. -/
def nestedFile : FileDetails :=
  ⟨0, [.normal [100], .normal [115], .normal [120]],
    [.normal [100], .normal [115], .normal ([120] ++ partialSuffix)], 1, 0, none, ⟨0, [], []⟩⟩

/-- Without `directory`, a single nested file is put under the destination that exists, and
its directory is not created. -/
theorem nested_parent_missing :
    buildManifest recursively id (fun _ => []) nestedSource = some nestedManifest ∧
      emptyD.IsDirectory emptyDestination.destination.dropLast ∧
      preparedFiles { emptyDestination with directory := false } (diskView (fun _ => 0) emptyD)
        nestedManifest = some [nestedFile] ∧
      createDirectories { emptyDestination with directory := false } nestedManifest emptyD =
        some emptyD ∧
      ¬ emptyD.IsDirectory nestedFile.partialPath.dropLast :=
  ⟨built_nestedManifest, .inl rfl, by decide, rfl, by decide⟩

/-- With `directory`, it is created. -/
theorem nested_parent_created : ∃ disk',
    createDirectories emptyDestination nestedManifest emptyD = some disk' ∧
      ∀ details ∈ [nestedFile], disk'.IsDirectory details.partialPath.dropLast := by
  have prepared : preparedFiles emptyDestination (diskView (fun _ => 0) emptyD) nestedManifest =
      some [nestedFile] := by
    decide
  refine ⟨_, rfl, (parents_exist_iff built_nestedManifest prepared rfl).mpr ?_⟩
  intro entry mem _
  obtain rfl := List.mem_singleton.mp mem
  exact .inr ⟨rfl, by decide⟩

end Cccp
