import Cccp.Items
import Cccp.Lib.Collections
import Cccp.Lib.FileSystem
import Cccp.Lib.OsPath

/-!
# The files a receiver prepares

`receiver::main` maps every file of the manifest to a local path, sets aside what
is already there, and gives each remaining file a partial path and the index from
which it wants the file to be sent.

`workingPaths_nodup_iff` is the exact account of when the local paths and the
partial paths of a manifest keep apart.
-/

namespace Cccp

/-- What `metadata` tells about a path that exists. -/
structure Metadata where
  isDir : Bool
  len : UInt64

/-- What the receiver finds on its disk; `none` where nothing exists. -/
abbrev DiskView := Path → Option Metadata

/-- What `metadata` reports of a disk; the length of a directory is the file system's
affair. -/
def diskView (dirLen : Path → UInt64) (disk : FileSystem Path) : DiskView := fun path =>
  (disk.entries path).map fun
    | .dir => ⟨true, dirLen path⟩
    | .file inode => ⟨false, UInt64.ofNat (disk.contents inode).length⟩

/-- The options `receiver::main` consults for its files. -/
structure ReceiverOptions where
  destination : Path
  directory : Bool
  overwrite : Bool
  /-- the text of `destination` goes on behind its last name -/
  trailing : Bool

/-- What `receiver::writer` is given for its file. -/
structure FileDetails where
  id : UInt32
  path : Path
  partialPath : Path
  size : UInt64
  startIndex : UInt64
  signature : Option Bytes
  crypto : Crypto
  deriving DecidableEq

/-! ## Paths -/

/-- The destination should be a directory. -/
def isDir (options : ReceiverOptions) (manifest : Manifest) : Bool :=
  options.directory || decide (manifest.files.entries.length > 1)

/-- The files are put under the destination, not at it. -/
def intoDirectory (options : ReceiverOptions) (disk : DiskView) (manifest : Manifest) : Bool :=
  isDir options manifest || ((disk options.destination).map Metadata.isDir).getD false

/-- The path to a file locally. -/
def localPath (options : ReceiverOptions) (disk : DiskView) (manifest : Manifest)
    (details : FileDetail) : Path :=
  if intoDirectory options disk manifest then
    options.destination.join (Path.components details.path)
  else options.destination

/-- The text of the local path goes on behind the file name. -/
def localTrailing (options : ReceiverOptions) (disk : DiskView) (manifest : Manifest)
    (details : FileDetail) : Bool :=
  if intoDirectory options disk manifest then Path.trailing details.path
  else options.trailing

/-- `.partial`, without the dot. -/
def partialExtension : Bytes :=
  ['p', 'a', 'r', 't', 'i', 'a', 'l'].flatMap String.utf8EncodeChar

/-- The path a file is written to until it is complete: the partial extension is
appended to the existing extension, if there is one.  `none` is `InvalidExtension`. -/
def partialPathOf (path : Path) (trailing : Bool) : Option Path :=
  match path.extension with
  | some extension =>
      if isUtf8 extension then
        some (path.withExtension trailing (extension ++ OsPath.dot :: partialExtension))
      else none
  | none => some (path.withExtension trailing partialExtension)

theorem partialPathOf_cases {path partialPath : Path} {trailing : Bool}
    (has : partialPathOf path trailing = some partialPath) :
    partialPath = path.withExtension trailing (path.longerExtension partialExtension) := by
  unfold partialPathOf at has
  unfold Path.longerExtension
  cases found : path.extension with
  | none =>
      rw [found] at has
      exact (Option.some.inj has).symm
  | some extension =>
      rw [found] at has
      dsimp only at has
      split at has
      next => exact (Option.some.inj has).symm
      next => cases has

theorem partialPathOf_text {path : Path} (trailing : Bool)
    (text : ∀ extension, path.extension = some extension → isUtf8 extension = true) :
    partialPathOf path trailing =
      some (path.withExtension trailing (path.longerExtension partialExtension)) := by
  unfold partialPathOf Path.longerExtension
  cases has : path.extension with
  | none => rfl
  | some extension => exact if_pos (text extension has)

/-- What the text goes on with makes a difference only behind a stem that is a dot. -/
theorem partialPathOf_of_not_dotted {path : Path} (plain : ¬ path.Dotted) (trailing : Bool) :
    partialPathOf path trailing = partialPathOf path false := by
  have same : path.withExtension trailing (path.longerExtension partialExtension) =
      path.withExtension false (path.longerExtension partialExtension) := by
    cases named : path.fileName with
    | none => rw [Path.withExtension_of_fileName named, Path.withExtension_of_fileName named]
    | some name =>
        obtain ⟨parent, rfl⟩ := Path.fileName_eq_some_iff.mp named
        have nonempty : partialExtension ≠ [] := by decide
        rw [Path.withExtension_longer nonempty (.inr plain),
          Path.withExtension_longer nonempty (.inr plain)]
  unfold Path.longerExtension at same
  unfold partialPathOf
  cases has : path.extension with
  | none =>
      rw [has] at same
      exact congrArg some same
  | some extension =>
      rw [has] at same
      dsimp only at same ⊢
      rw [same]

/-! ## Preparing the files -/

/-- The index to resume from: the length of the partial file rounded down to whole
chunks. -/
def startIndex (found : Option Metadata) : UInt64 :=
  match found with
  | some metadata => metadata.len / UInt64.ofNat transferBufferSize *
      UInt64.ofNat transferBufferSize
  | none => 0

/-- Rounding down to whole chunks. -/
theorem toNat_startIndex (metadata : Metadata) :
    (startIndex (some metadata)).toNat =
      metadata.len.toNat / transferBufferSize * transferBufferSize := by
  have chunk : (UInt64.ofNat transferBufferSize).toNat = transferBufferSize := by decide
  have below := Nat.div_mul_le_self metadata.len.toNat transferBufferSize
  have bound := metadata.len.toNat_lt
  rw [startIndex, UInt64.toNat_mul, UInt64.toNat_div, chunk, Nat.mod_eq_of_lt (by omega)]

/-- A file is there already and may not be overwritten. -/
def alreadyThere (options : ReceiverOptions) (disk : DiskView) (path : Path) : Bool :=
  (disk path).isSome && !options.overwrite

/-- The ids of the files that are already there. -/
def completedIds (options : ReceiverOptions) (disk : DiskView) (manifest : Manifest) :
    List UInt32 :=
  manifest.files.entries.filterMap fun entry =>
    if alreadyThere options disk (localPath options disk manifest entry.2) then
      some entry.1
    else none

theorem completedIds_sublist (options : ReceiverOptions) (disk : DiskView) (manifest : Manifest) :
    (completedIds options disk manifest).Sublist manifest.files.keys := by
  rw [completedIds, AList.keys, List.keys]
  induction manifest.files.entries with
  | nil => exact .slnil
  | cons entry rest ih =>
      rw [List.filterMap_cons, List.map_cons]
      split
      next => exact ih.cons _
      next id found =>
        split at found
        next =>
          cases found
          exact ih.cons_cons _
        next => cases found

/-- The files that are to be received, with their local paths. -/
def filteredFiles (options : ReceiverOptions) (disk : DiskView) (manifest : Manifest) :
    List (UInt32 × FileDetail × Path) :=
  manifest.files.entries.filterMap fun entry =>
    let path := localPath options disk manifest entry.2
    if alreadyThere options disk path then none else some (entry.1, entry.2, path)

def fileDetails (options : ReceiverOptions) (disk : DiskView) (manifest : Manifest)
    (file : UInt32 × FileDetail × Path) : Option FileDetails :=
  let trailing := localTrailing options disk manifest file.2.1
  (partialPathOf file.2.2 trailing).map fun partialPath =>
    { id := file.1
      path := file.2.2
      partialPath := partialPath
      size := file.2.1.size
      startIndex := startIndex (disk partialPath)
      signature := file.2.1.signature
      crypto := file.2.1.crypto }

/-- The files the receiver waits for, or `none` where a path has no partial path. -/
def preparedFiles (options : ReceiverOptions) (disk : DiskView) (manifest : Manifest) :
    Option (List FileDetails) :=
  (filteredFiles options disk manifest).mapM (fileDetails options disk manifest)

/-- The map of the files to be received. -/
def fileMap (files : List FileDetails) : HashMap UInt32 FileDetails :=
  files.foldl (fun map details => map.insert details.id details) ∅

theorem mem_fileMap {files : List FileDetails} {id : UInt32} :
    id ∈ fileMap files ↔ ∃ details ∈ files, details.id = id := by
  have general : ∀ map : HashMap UInt32 FileDetails,
      id ∈ files.foldl (fun map details => map.insert details.id details) map ↔
        id ∈ map ∨ ∃ details ∈ files, details.id = id := by
    induction files with
    | nil => simp
    | cons first rest ih =>
        intro map
        rw [List.foldl_cons, ih, AList.mem_insert]
        simp only [List.mem_cons, exists_eq_or_imp, eq_comm (a := id)]
        tauto
  rw [fileMap, general]
  exact or_iff_right (AList.notMem_empty id)

/-- Every file stands under its own id. -/
theorem mem_of_lookup_fileMap {files : List FileDetails} {id : UInt32} {details : FileDetails}
    (found : (fileMap files).lookup id = some details) :
    details ∈ files ∧ details.id = id := by
  have pairs : fileMap files = (files.map fun details => (details.id, details)).foldl
      (fun map pair => map.insert pair.1 pair.2) ∅ := by
    rw [fileMap, List.foldl_map]
  rw [pairs] at found
  rcases mem_foldl_insert (AList.mem_lookup_iff.mp found) with none_ | inserted
  · exact absurd none_ List.not_mem_nil
  · obtain ⟨other, mem, same⟩ := List.mem_map.mp inserted
    have is : other = details := congrArg Prod.snd same
    rw [← is]
    exact ⟨mem, congrArg Prod.fst same⟩

/-- The files to be received are those of the manifest that are not there already. -/
theorem mem_fileMap_preparedFiles {options : ReceiverOptions} {disk : DiskView}
    {manifest : Manifest} {files : List FileDetails}
    (prepared : preparedFiles options disk manifest = some files) (id : UInt32) :
    id ∈ fileMap files ↔
      id ∈ manifest.files ∧ id ∉ completedIds options disk manifest := by
  have ids : ∀ {kept : List (UInt32 × FileDetail × Path)} {files : List FileDetails},
      kept.mapM (fileDetails options disk manifest) = some files →
        files.map FileDetails.id = kept.map Prod.fst := by
    intro kept
    induction kept with
    | nil =>
        intro files prepared
        cases prepared
        rfl
    | cons first rest ih =>
        intro files prepared
        rw [List.mapM_cons] at prepared
        obtain ⟨details, made, prepared⟩ := Option.bind_eq_some_iff.mp prepared
        obtain ⟨more, others, same⟩ := Option.bind_eq_some_iff.mp prepared
        cases same
        obtain ⟨partialPath, -, rfl⟩ := Option.map_eq_some_iff.mp made
        rw [List.map_cons, ih others, List.map_cons]
  have kept : id ∈ fileMap files ↔ ∃ entry ∈ manifest.files.entries, entry.1 = id ∧
      alreadyThere options disk (localPath options disk manifest entry.2) = false := by
    have listed : id ∈ fileMap files ↔
        id ∈ (filteredFiles options disk manifest).map Prod.fst := by
      rw [← ids prepared, mem_fileMap, List.mem_map]
    rw [listed, List.mem_map]
    simp only [filteredFiles, List.mem_filterMap]
    constructor
    · rintro ⟨file, ⟨entry, mem, made⟩, rfl⟩
      split at made
      next => cases made
      next absent =>
        cases made
        exact ⟨entry, mem, rfl, by simpa using absent⟩
    · rintro ⟨entry, mem, rfl, absent⟩
      exact ⟨_, ⟨entry, mem, by rw [absent]; rfl⟩, rfl⟩
  have completed : id ∈ completedIds options disk manifest ↔
      ∃ entry ∈ manifest.files.entries, entry.1 = id ∧
        alreadyThere options disk (localPath options disk manifest entry.2) = true := by
    simp only [completedIds, List.mem_filterMap]
    constructor
    · rintro ⟨entry, mem, made⟩
      split at made
      next there =>
        cases made
        exact ⟨entry, mem, rfl, there⟩
      next => cases made
    · rintro ⟨entry, mem, rfl, there⟩
      exact ⟨entry, mem, by rw [there]; rfl⟩
  have listed : id ∈ manifest.files ↔ ∃ entry ∈ manifest.files.entries, entry.1 = id :=
    AList.mem_keys.trans List.mem_map
  rw [kept, completed, listed]
  constructor
  · rintro ⟨entry, mem, rfl, absent⟩
    refine ⟨⟨entry, mem, rfl⟩, ?_⟩
    rintro ⟨other, mem', same, there⟩
    -- ids are distinct, so it is the same entry
    obtain rfl : other = entry :=
      List.NodupKeys.eq_of_fst_eq manifest.files.nodupKeys mem' mem same
    exact absurd (absent.symm.trans there) (by decide)
  · rintro ⟨⟨entry, mem, rfl⟩, notThere⟩
    refine ⟨entry, mem, rfl, ?_⟩
    rw [← Bool.not_eq_true]
    exact fun there => notThere ⟨entry, mem, rfl, there⟩

/-! ## When working paths keep apart -/

/-- The local paths and then the partial paths of all files of a manifest. -/
def workingPaths (options : ReceiverOptions) (disk : DiskView) (manifest : Manifest) :
    Option (List Path) :=
  let paths := manifest.files.entries.map fun entry =>
    localPath options disk manifest entry.2
  let partialPaths := manifest.files.entries.mapM fun entry =>
    partialPathOf (localPath options disk manifest entry.2)
      (localTrailing options disk manifest entry.2)
  partialPaths.map (paths ++ ·)

/-- A path as `build_manifest` writes it: ordinary names, joined by separators. -/
def BuiltPath (path : Bytes) : Prop :=
  ∃ names : List FileName, names ≠ [] ∧ path = relativePath names

/-- The name of the partial extension. -/
def partialName : FileName where
  bytes := partialExtension
  nonempty := by decide
  plain := by decide
  not_dot := by decide
  not_dotdot := by decide
  text := isUtf8_iff.mpr ⟨_, rfl⟩

/-- The suffix the partial path of a file has over its local path. -/
def partialSuffix : Bytes := OsPath.dot :: partialExtension

theorem BuiltPath.partial_ {path : Bytes} (built : BuiltPath path) :
    BuiltPath (path ++ partialSuffix) := by
  obtain ⟨names, nonempty, rfl⟩ := built
  obtain ⟨parents, last, rfl⟩ := (List.eq_nil_or_concat' names).resolve_left nonempty
  refine ⟨parents ++ [last.longer partialName], by simp, ?_⟩
  exact (relativePath_longer parents last partialName).symm

/-- The local path of a built path keeps the names of the path. -/
theorem join_built {destination : Path} {names : List FileName} (nonempty : names ≠ []) :
    destination.join (Path.components (relativePath names)) =
      destination ++ names.map fun name => .normal name.bytes := by
  rw [Path.components_relativePath nonempty]
  cases names with
  | nil => exact absurd rfl nonempty
  | cons name names => rfl

/-- The partial path of a file that is put under a destination. -/
def partialPlace (destination : Path) (path : Bytes) : Path :=
  if (Path.components path).Dotted then
    (destination.join (Path.components path)).dropLast ++ [.parentDir]
  else destination.join (Path.components (path ++ partialSuffix))

/-- The partial path of a file is the local path of the file whose manifest path is longer
by `.partial`, unless the stem of its name is a single dot: then it is the directory above
the one it is put in. -/
theorem partialPathOf_built {destination : Path} {path : Bytes} (built : BuiltPath path) :
    partialPathOf (destination.join (Path.components path)) (Path.trailing path) =
      some (partialPlace destination path) := by
  obtain ⟨names, nonempty, rfl⟩ := built
  obtain ⟨parents, last, rfl⟩ := (List.eq_nil_or_concat' names).resolve_left nonempty
  have longer : relativePath (parents ++ [last]) ++ partialSuffix =
      relativePath (parents ++ [last.longer partialName]) :=
    (relativePath_longer parents last partialName).symm
  have dotted_iff : ∀ parent : Path, (Path.components (relativePath (parents ++ [last]))).Dotted ↔
      Path.Dotted (parent ++ [.normal last.bytes]) := by
    intro parent
    rw [Path.components_relativePath nonempty, List.map_append, List.map_singleton, Path.Dotted,
      Path.Dotted, Path.fileStem, Path.fileStem, Path.extension, Path.extension,
      Path.fileName_concat, Path.fileName_concat]
  rw [Path.trailing_relativePath nonempty, partialPlace, longer, join_built nonempty,
    join_built (by simp)]
  simp only [List.map_append, List.map_cons, List.map_nil, ← List.append_assoc]
  generalize destination ++ parents.map (fun name => Component.normal name.bytes) = parent
  rw [partialPathOf_text false fun extension has => Path.isUtf8_extension last.text has]
  split
  next dotted =>
    rw [Path.withExtension_dotted ((dotted_iff parent).mp dotted), List.dropLast_concat]
  next plain =>
    exact congrArg some (Path.withExtension_longer partialName.nonempty
      (.inr fun dotted => plain ((dotted_iff parent).mpr dotted)))

theorem join_built_inj {destination : Path} {path path' : Bytes} (built : BuiltPath path)
    (built' : BuiltPath path')
    (same : destination.join (Path.components path) =
      destination.join (Path.components path')) : path = path' := by
  obtain ⟨names, nonempty, rfl⟩ := built
  obtain ⟨names', nonempty', rfl⟩ := built'
  rw [join_built nonempty, join_built nonempty'] at same
  apply Path.components_relativePath_inj nonempty nonempty'
  rw [Path.components_relativePath nonempty, Path.components_relativePath nonempty']
  exact List.append_cancel_left same

/-- In a directory, the working paths are the places of the manifest's paths and their
partial places. -/
theorem workingPaths_built {options : ReceiverOptions} {disk : DiskView} {manifest : Manifest}
    (directory : intoDirectory options disk manifest = true)
    (built : ∀ entry ∈ manifest.files.entries, BuiltPath entry.2.path) :
    workingPaths options disk manifest =
      some (((manifest.files.entries.map fun entry => entry.2.path).map fun path =>
          options.destination.join (Path.components path)) ++
        (manifest.files.entries.map fun entry => entry.2.path).map
          (partialPlace options.destination)) := by
  have local_ : ∀ details, localPath options disk manifest details =
      options.destination.join (Path.components details.path) := by
    intro details
    rw [localPath, if_pos directory]
  have trailing_ : ∀ details, localTrailing options disk manifest details =
      Path.trailing details.path := by
    intro details
    rw [localTrailing, if_pos directory]
  have partial_ : (manifest.files.entries.mapM fun entry =>
      partialPathOf (options.destination.join (Path.components entry.2.path))
        (Path.trailing entry.2.path)) =
        some ((manifest.files.entries.map fun entry => entry.2.path).map
          (partialPlace options.destination)) := by
    generalize manifest.files.entries = entries at built ⊢
    induction entries with
    | nil => rfl
    | cons entry entries ih =>
        rw [List.mapM_cons, partialPathOf_built (built entry List.mem_cons_self),
          ih fun other mem => built other (List.mem_cons_of_mem _ mem)]
        rfl
  simp only [workingPaths, trailing_, local_, partial_, Option.map_some, List.map_map]
  rfl

/-- The files of two paths have a working path in common: the stems of both names are single
dots, in one directory, or one path is the other with `.partial` appended. -/
def Collide (path other : Bytes) : Prop :=
  if (Path.components path).Dotted then
    (Path.components other).Dotted ∧ path ≠ other ∧
      (Path.components path).dropLast = (Path.components other).dropLast
  else other = path ++ partialSuffix

instance (path other : Bytes) : Decidable (Collide path other) :=
  inferInstanceAs (Decidable (if (Path.components path).Dotted then
    (Path.components other).Dotted ∧ path ≠ other ∧
      (Path.components path).dropLast = (Path.components other).dropLast
  else other = path ++ partialSuffix))

/-- A place ends with an ordinary name. -/
theorem exists_concat_of_built {destination : Path} {path : Bytes} (built : BuiltPath path) :
    ∃ parents name, Path.components path = parents ++ [.normal name] ∧
      destination.join (Path.components path) = destination ++ parents ++ [.normal name] := by
  obtain ⟨names, nonempty, rfl⟩ := built
  obtain ⟨parents, last, rfl⟩ := (List.eq_nil_or_concat' names).resolve_left nonempty
  rw [join_built nonempty, Path.components_relativePath nonempty]
  simp only [List.map_append, List.map_cons, List.map_nil, ← List.append_assoc]
  exact ⟨_, _, rfl, rfl⟩

/-- Where partial places are the same, the files collide, or they are one. -/
theorem partialPlace_eq_iff {destination : Path} {path path' : Bytes} (built : BuiltPath path)
    (built' : BuiltPath path') : partialPlace destination path = partialPlace destination path' ↔
      path = path' ∨ (Path.components path).Dotted ∧ (Path.components path').Dotted ∧
        (Path.components path).dropLast = (Path.components path').dropLast := by
  obtain ⟨parents, name, shape, place⟩ := @exists_concat_of_built destination path built
  obtain ⟨parents', name', shape', place'⟩ := @exists_concat_of_built destination path' built'
  obtain ⟨_, _, -, place_⟩ := @exists_concat_of_built destination _ built.partial_
  obtain ⟨_, _, -, place_'⟩ := @exists_concat_of_built destination _ built'.partial_
  constructor
  · intro same
    unfold partialPlace at same
    split at same
    next dotted =>
      split at same
      next dotted' =>
        rw [place, place', List.dropLast_concat, List.dropLast_concat] at same
        have parents_eq := List.append_cancel_left (List.append_cancel_right same)
        refine .inr ⟨dotted, dotted', ?_⟩
        rw [shape, shape', List.dropLast_concat, List.dropLast_concat, parents_eq]
      next =>
        rw [place_'] at same
        cases List.append_inj_right' same rfl
    next =>
      split at same
      next =>
        rw [place_] at same
        cases List.append_inj_right' same rfl
      next =>
        have longer := join_built_inj built.partial_ built'.partial_ same
        exact .inl (List.append_cancel_right longer)
  · rintro (rfl | ⟨dotted, dotted', same⟩)
    · rfl
    · rw [shape, shape', List.dropLast_concat, List.dropLast_concat] at same
      rw [partialPlace, partialPlace, if_pos dotted, if_pos dotted', place, place', same,
        List.dropLast_concat, List.dropLast_concat]

/-- A place is the partial place of a file if it is that of the path with `.partial`
appended. -/
theorem place_eq_partialPlace_iff {destination : Path} {path other : Bytes}
    (built : BuiltPath path) (built' : BuiltPath other) :
    destination.join (Path.components other) = partialPlace destination path ↔
      ¬ (Path.components path).Dotted ∧ other = path ++ partialSuffix := by
  obtain ⟨_, _, -, place⟩ := @exists_concat_of_built destination _ built'
  unfold partialPlace
  split
  next dotted =>
    refine iff_of_false (fun same => ?_) (fun both => both.1 dotted)
    rw [place] at same
    cases List.append_inj_right' same rfl
  next plain =>
    refine ⟨fun same => ⟨plain, join_built_inj built' built.partial_ same⟩, ?_⟩
    rintro ⟨-, rfl⟩
    rfl

/-- In a directory, the local paths and the partial paths of distinct built paths are
computed and pairwise distinct if and only if no two of the files collide. -/
theorem workingPaths_nodup_iff {options : ReceiverOptions} {disk : DiskView}
    {manifest : Manifest} (directory : intoDirectory options disk manifest = true)
    (built : ∀ entry ∈ manifest.files.entries, BuiltPath entry.2.path)
    (distinct : (manifest.files.entries.map fun entry => entry.2.path).Nodup) :
    (∃ paths, workingPaths options disk manifest = some paths ∧ paths.Nodup) ↔
      ∀ entry ∈ manifest.files.entries, ∀ other ∈ manifest.files.entries,
        ¬ Collide entry.2.path other.2.path := by
  have listed : ∀ path ∈ manifest.files.entries.map fun entry => entry.2.path,
      BuiltPath path := by
    intro path mem
    obtain ⟨entry, member, rfl⟩ := List.mem_map.mp mem
    exact built entry member
  have apart : (∀ entry ∈ manifest.files.entries, ∀ other ∈ manifest.files.entries,
      ¬ Collide entry.2.path other.2.path) ↔
        ∀ path ∈ manifest.files.entries.map fun entry => entry.2.path,
          ∀ other ∈ manifest.files.entries.map fun entry => entry.2.path, ¬ Collide path other := by
    simp only [List.forall_mem_map]
  rw [workingPaths_built directory built, apart]
  simp only [Option.some.injEq, exists_eq_left']
  generalize (manifest.files.entries.map fun entry => entry.2.path) = paths at distinct listed
  have places : (paths.map fun path => options.destination.join (Path.components path)).Nodup :=
    distinct.map_on fun path mem path' mem' same =>
      join_built_inj (listed path mem) (listed path' mem') same
  have partials := List.nodup_map_iff_inj_on (f := partialPlace options.destination) distinct
  rw [List.nodup_append', partials]
  constructor
  · rintro ⟨-, injective, disjoint⟩ path mem other mem' collide
    unfold Collide at collide
    split at collide
    next dotted =>
      obtain ⟨dotted', differ, same⟩ := collide
      exact differ (injective path mem other mem'
        ((partialPlace_eq_iff (listed path mem) (listed other mem')).mpr
          (.inr ⟨dotted, dotted', same⟩)))
    next plain =>
      refine disjoint (List.mem_map.mpr ⟨other, mem', rfl⟩) (List.mem_map.mpr ⟨path, mem, ?_⟩)
      exact ((place_eq_partialPlace_iff (listed path mem) (listed other mem')).mpr
        ⟨plain, collide⟩).symm
  · intro clear
    refine ⟨places, ?_, ?_⟩
    · intro path mem other mem' same
      by_contra differ
      rcases (partialPlace_eq_iff (listed path mem) (listed other mem')).mp same with
        equal | ⟨dotted, dotted', parents⟩
      · exact differ equal
      · refine clear path mem other mem' ?_
        rw [Collide, if_pos dotted]
        exact ⟨dotted', differ, parents⟩
    · intro place mem mem'
      obtain ⟨other, member, rfl⟩ := List.mem_map.mp mem
      obtain ⟨path, member', same⟩ := List.mem_map.mp mem'
      obtain ⟨plain, longer⟩ :=
        (place_eq_partialPlace_iff (listed path member') (listed other member)).mp same.symm
      refine clear path member' other member ?_
      rw [Collide, if_neg plain]
      exact longer

/-! ## Two files that share a path -/

/-- A destination directory with nothing in it. -/
def emptyDestination : ReceiverOptions where
  destination := [.normal [100]]
  directory := true
  overwrite := false
  trailing := false

def plainDetail (path : Bytes) : FileDetail where
  path := path
  size := 0
  signature := none
  crypto := ⟨0, [], []⟩

/-- The file name `a`. -/
def nameA : FileName where
  bytes := [97]
  nonempty := by decide
  plain := by decide
  not_dot := by decide
  not_dotdot := by decide
  text := isUtf8_iff.mpr ⟨['a'], by decide⟩

/-- `a` and `a.partial`. -/
def collidingManifest : Manifest where
  directories := []
  files := ⟨[⟨0, plainDetail [97]⟩, ⟨1, plainDetail ([97] ++ partialSuffix)⟩],
    by unfold List.NodupKeys; decide⟩

theorem collidingManifest_built :
    ∀ entry ∈ collidingManifest.files.entries, BuiltPath entry.2.path := by
  intro entry mem
  have builtA : BuiltPath [97] := ⟨[nameA], by simp, rfl⟩
  rcases List.mem_cons.mp mem with rfl | mem
  · exact builtA
  · obtain rfl := List.mem_singleton.mp mem
    exact builtA.partial_

/-- The partial path of `a` is the local path of `a.partial`. -/
theorem workingPaths_collide :
    ∃ manifest : Manifest,
      (∀ entry ∈ manifest.files.entries, BuiltPath entry.2.path) ∧
      (manifest.files.entries.map fun entry => entry.2.path).Nodup ∧
      intoDirectory emptyDestination (fun _ => none) manifest = true ∧
      ¬ ∃ paths, workingPaths emptyDestination (fun _ => none) manifest = some paths ∧
        paths.Nodup := by
  refine ⟨collidingManifest, collidingManifest_built, by decide, rfl, ?_⟩
  rw [workingPaths_built rfl collidingManifest_built]
  rintro ⟨paths, same, nodup⟩
  cases same
  exact absurd nodup (by decide)

/-- A file name of this text. -/
def textName (text : List Char) (nonempty : text.flatMap String.utf8EncodeChar ≠ [])
    (plain : OsPath.separator ∉ text.flatMap String.utf8EncodeChar)
    (not_dot : text.flatMap String.utf8EncodeChar ≠ [OsPath.dot])
    (not_dotdot : text.flatMap String.utf8EncodeChar ≠ [OsPath.dot, OsPath.dot]) : FileName where
  bytes := text.flatMap String.utf8EncodeChar
  nonempty := nonempty
  plain := plain
  not_dot := not_dot
  not_dotdot := not_dotdot
  text := isUtf8_iff.mpr ⟨text, rfl⟩

/-- `a.b` and `..c` -/
def nameAB : FileName :=
  textName ['a', '.', 'b'] (by decide) (by decide) (by decide) (by decide)

def nameDotted : FileName :=
  textName ['.', '.', 'c'] (by decide) (by decide) (by decide) (by decide)

/-- `a.b`, `a/a.b` and `..c`. -/
def extendedManifest : Manifest where
  directories := [[97]]
  files := ⟨[⟨0, plainDetail (relativePath [nameAB])⟩,
    ⟨1, plainDetail (relativePath [nameA, nameAB])⟩,
    ⟨2, plainDetail (relativePath [nameDotted])⟩], by unfold List.NodupKeys; decide⟩

theorem workingPaths_nodup_iff_extended :
    ∃ paths, workingPaths emptyDestination (fun _ => none) extendedManifest = some paths ∧
      paths.Nodup := by
  refine (workingPaths_nodup_iff rfl ?_ (by decide)).mpr (by decide)
  intro entry mem
  simp only [extendedManifest, List.mem_cons, List.not_mem_nil, or_false] at mem
  rcases mem with rfl | rfl | rfl
  · exact ⟨[nameAB], by simp, rfl⟩
  · exact ⟨[nameA, nameAB], by simp, rfl⟩
  · exact ⟨[nameDotted], by simp, rfl⟩

end Cccp
