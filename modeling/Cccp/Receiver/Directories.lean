import Cccp.Lib.Collections
import Cccp.Lib.Directories
import Cccp.Receiver.Task

/-!
# The directories and files of a transfer

What `receiver::main` makes of a manifest: the directories it creates where they are
missing, and the paths and start indexes of the files it prepares.
-/

namespace Cccp

/-! ## The directories -/

/-- The destination and the local directories needed to write the files. -/
def localDirectories (options : ReceiverOptions) (manifest : Manifest) : List Path :=
  options.destination ::
    manifest.directories.map fun dir => options.destination.join (Path.components dir)

/-- If the destination is a directory, create it and the local directories. -/
def createDirectories (options : ReceiverOptions) (manifest : Manifest)
    (disk : FileSystem Path) : Option (FileSystem Path) :=
  if isDir options manifest then disk.createMissing (localDirectories options manifest)
  else some disk

/-! ## The files -/

variable {options : ReceiverOptions} {manifest : Manifest} {disk : FileSystem Path}

/-- A partial path is in the directory of its path. -/
theorem dropLast_partialPathOf {path partialPath : Path} {trailing : Bool}
    (has : partialPathOf path trailing = some partialPath) :
    partialPath.dropLast = path.dropLast := by
  rw [partialPathOf_cases has]
  rcases Path.withExtension_cases partialName.nonempty path trailing with
    ⟨-, same⟩ | ⟨name, -, shape⟩
  · exact congrArg List.dropLast same
  · exact (congrArg List.dropLast shape).trans (List.dropLast_concat ..)

/-- A file that is received has the local path of its entry, and the partial path of that. -/
theorem mem_preparedFiles {view : DiskView} {files : List FileDetails} {details : FileDetails}
    (prepared : preparedFiles options view manifest = some files) (mem : details ∈ files) :
    ∃ entry ∈ manifest.files.entries,
      alreadyThere options view (localPath options view manifest entry.2) = false ∧
        details.path = localPath options view manifest entry.2 ∧
        partialPathOf details.path (localTrailing options view manifest entry.2) =
          some details.partialPath := by
  unfold preparedFiles at prepared
  obtain ⟨file, listed, made⟩ := exists_of_mem_mapM prepared mem
  obtain ⟨entry, here, kept⟩ := List.mem_filterMap.mp listed
  obtain ⟨partialPath, has, rfl⟩ := Option.map_eq_some_iff.mp made
  dsimp only at kept
  split at kept
  next => cases kept
  next absent =>
    cases kept
    exact ⟨entry, here, by simpa using absent, rfl, has⟩

/-- A file is resumed at the length its partial file has. -/
theorem startIndex_of_prepared {options : ReceiverOptions} {view : DiskView} {manifest : Manifest}
    {files : List FileDetails} {details : FileDetails}
    (prepared : preparedFiles options view manifest = some files) (mem : details ∈ files) :
    details.startIndex = startIndex (view details.partialPath) := by
  obtain ⟨file, -, made⟩ := exists_of_mem_mapM prepared mem
  rw [fileDetails] at made
  obtain ⟨partialPath, -, rfl⟩ := Option.map_eq_some_iff.mp made
  rfl

/-- The files have distinct ids. -/
theorem nodup_preparedFiles {options : ReceiverOptions} {view : DiskView} {manifest : Manifest}
    {files : List FileDetails} (prepared : preparedFiles options view manifest = some files) :
    (files.map FileDetails.id).Nodup := by
  have same : List.Forall₂ (fun (file : UInt32 × FileDetail × Path) (details : FileDetails) =>
      file.1 = details.id) (filteredFiles options view manifest) files := by
    apply (forall₂_of_mapM prepared).imp
    intro file details made
    obtain ⟨partialPath, -, rfl⟩ := Option.map_eq_some_iff.mp made
    rfl
  have ids : (filteredFiles options view manifest).map Prod.fst = files.map FileDetails.id := by
    rw [← List.forall₂_eq_eq_eq, List.forall₂_map_left_iff, List.forall₂_map_right_iff]
    exact same
  have kept : ((filteredFiles options view manifest).map Prod.fst).Sublist
      manifest.files.keys := by
    refine map_filterMap_sublist (f := Sigma.fst) (fun entry file made => ?_) _
    dsimp only at made
    split at made
    next => cases made
    next =>
      cases made
      rfl
  rw [← ids]
  exact kept.nodup manifest.files.keys_nodup

/-- The files are prepared where each that is to be received has a partial path. -/
theorem exists_preparedFiles {options : ReceiverOptions} {view : DiskView} {manifest : Manifest}
    (have_ : ∀ entry ∈ manifest.files.entries, ∃ partialPath,
      partialPathOf (localPath options view manifest entry.2)
        (localTrailing options view manifest entry.2) = some partialPath) :
    ∃ files, preparedFiles options view manifest = some files := by
  refine exists_mapM fun file mem => ?_
  obtain ⟨entry, listed, kept⟩ := List.mem_filterMap.mp mem
  dsimp only at kept
  split at kept
  next => cases kept
  next =>
    cases kept
    obtain ⟨partialPath, has⟩ := have_ entry listed
    rw [fileDetails, has]
    exact ⟨_, rfl⟩

/-- What is not there already is prepared. -/
theorem exists_details {options : ReceiverOptions} {view : DiskView} {manifest : Manifest}
    {files : List FileDetails} (prepared : preparedFiles options view manifest = some files)
    {entry : (_ : UInt32) × FileDetail} (mem : entry ∈ manifest.files.entries)
    (absent : alreadyThere options view (localPath options view manifest entry.2) = false) :
    ∃ details ∈ files, details.path = localPath options view manifest entry.2 ∧
      partialPathOf details.path (localTrailing options view manifest entry.2) =
        some details.partialPath := by
  have filtered : (entry.1, entry.2, localPath options view manifest entry.2) ∈
      filteredFiles options view manifest :=
    List.mem_filterMap.mpr ⟨entry, mem, by simp [absent]⟩
  obtain ⟨details, listed, made⟩ := exists_mem_of_mapM prepared filtered
  obtain ⟨partialPath, has, rfl⟩ := Option.map_eq_some_iff.mp made
  exact ⟨_, listed, rfl, has⟩

end Cccp
