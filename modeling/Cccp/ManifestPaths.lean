import Cccp.Crawl
import Cccp.Lib.Utf8

/-!
# The paths of the manifest

`build_manifest` writes the path of a file as text and `start_file_transfer` opens what the
text says.  `leadsBack_iff` is the account of when that is the file that was crawled:
`join_components_textOf_iff` says it of the names, `lookup_buildManifest` of the ids.
-/

namespace Cccp

/-! ## What is opened -/

/-- The path `start_file_transfer` gives to the reader. -/
def openedPath (source : Source) (details : FileDetail) : Path :=
  match source.tree with
  | .dir _ => source.path.join (Path.components details.path)
  | .missing | .file _ => source.path

/-- A source on a disk, where no directory has two entries of one name. -/
structure DiskSource extends Source where
  distinct : ∀ entries, tree = .dir entries → entries.Distinct

/-- What `files_and_dirs` finds. -/
def Source.found (source : Source) (recursive : Bool) : Found :=
  source.tree.crawl recursive source.path ([], [])

/-- The manifest leads back from each id to the file that was found there, and different files
have different paths in it. -/
structure LeadsBack (source : Source) (files : List (Path × Bytes)) (manifest : Manifest) :
    Prop where
  opens : ∀ index file, files[index]? = some file →
    ∃ details, manifest.files.lookup (UInt32.ofNat index) = some details ∧
      openedPath source details = file.1
  distinct : ∀ index index' file file' details details', index ≠ index' →
    files[index]? = some file → files[index']? = some file' →
      manifest.files.lookup (UInt32.ofNat index) = some details →
        manifest.files.lookup (UInt32.ofNat index') = some details' →
          details.path ≠ details'.path

/-- Each file has an id of its own, and its path relative to the source is UTF-8. -/
structure Addressable (source : Source) (files : List (Path × Bytes)) : Prop where
  ids : files.length ≤ 2 ^ 32
  texts : ∀ file ∈ files, ∀ relative, file.1.stripPrefix source.path = some relative →
    isUtf8 relative.bytes = true

/-! ## Names -/

theorem join_names (base : Path) (names : List Bytes) :
    base.join (names.map .normal) = base ++ names.map .normal := by
  cases names with
  | nil => rfl
  | cons name names => rfl

theorem components_bytes_ofNames {names : List OsName} (nonempty : names ≠ []) :
    Path.components (Path.ofNames names).bytes = Path.ofNames names := by
  have are : ∀ bytes ∈ names.map OsName.bytes, IsName bytes := by
    intro bytes mem
    obtain ⟨name, -, rfl⟩ := List.mem_map.mp mem
    exact name.is_name
  rw [Path.bytes_ofNames, Path.components_intercalate are (by simpa using nonempty), List.map_map]
  rfl

/-- **The text of names leads back to them** exactly if they are UTF-8. -/
theorem join_components_textOf_iff {base : Path} {names : List OsName} (nonempty : names ≠ []) :
    base.join (Path.components (textOf names)) = base ++ Path.ofNames names ↔
      isUtf8 (Path.ofNames names).bytes = true := by
  constructor
  · intro same
    have lossy : (names.map fun name => toStringLossy name.bytes).map Component.normal =
        (names.map OsName.bytes).map Component.normal := by
      rw [components_textOf nonempty] at same
      have kept := join_names base (names.map fun name => toStringLossy name.bytes)
      rw [List.map_map] at kept ⊢
      rw [List.map_map]
      exact List.append_cancel_left (kept.symm.trans same)
    have names_same := List.map_injective_iff.mpr (fun _ _ => Component.normal.inj) lossy
    rw [← toStringLossy_eq_iff, toStringLossy_ofNames, textOf, names_same, Path.bytes_ofNames]
  · intro text
    have same : textOf names = (Path.ofNames names).bytes := by
      rw [← toStringLossy_ofNames, toStringLossy_eq_iff.mpr text]
    have kept := join_names base (names.map OsName.bytes)
    rw [List.map_map] at kept
    rw [same, components_bytes_ofNames nonempty]
    exact kept

/-! ## Ids -/

variable {options : ManifestOptions} {hash : Bytes → Bytes} {drawn : Nat → Bytes}
  {source : Source} {manifest : Manifest} {index : Nat} {file : Path × Bytes}

theorem ofNat_inj_of_lt {n m : Nat} (small : n < 2 ^ 32) (small' : m < 2 ^ 32)
    (same : UInt32.ofNat n = UInt32.ofNat m) : n = m := by
  have values := congrArg UInt32.toNat same
  rwa [UInt32.toNat_ofNat', UInt32.toNat_ofNat', Nat.mod_eq_of_lt small,
    Nat.mod_eq_of_lt small'] at values

/-- The ids are the indices, as long as these fit. -/
theorem keys_of_mapM {found : List (Path × Bytes)} {files : List (UInt32 × FileDetail)}
    {root : Path} (made : found.zipIdx.mapM (manifestFile options hash drawn root) = some files) :
    files.map Prod.fst = (List.range' 0 found.length).map UInt32.ofNat := by
  have each : List.Forall₂ (fun (indexed : (Path × Bytes) × Nat) (file : UInt32 × FileDetail) =>
      UInt32.ofNat indexed.2 = file.1) found.zipIdx files := by
    apply (forall₂_of_mapM made).imp
    intro indexed file here
    obtain ⟨path, -, same⟩ := Option.map_eq_some_iff.mp here
    exact congrArg Prod.fst same
  rw [← List.zipIdx_map_snd 0 found, List.map_map]
  have related := List.forall₂_map_left_iff.mpr (List.forall₂_map_right_iff.mpr each)
  rw [List.forall₂_eq_eq_eq] at related
  exact related.symm

theorem nodup_ids {n : Nat} (few : n ≤ 2 ^ 32) : ((List.range' 0 n).map UInt32.ofNat).Nodup := by
  refine List.Nodup.map_on (fun x mem y mem' same => ?_) List.nodup_range'
  have less := (List.mem_range'_1.mp mem).2
  have less' := (List.mem_range'_1.mp mem').2
  exact ofNat_inj_of_lt (by omega) (by omega) same

/-- **The id of a file leads to its path** in the manifest, as long as there are ids. -/
theorem lookup_buildManifest (built : buildManifest options hash drawn source = some manifest)
    (few : (source.found options.recursive).1.length ≤ 2 ^ 32)
    (here : (source.found options.recursive).1[index]? = some file) :
    ∃ details, manifest.files.lookup (UInt32.ofNat index) = some details ∧
      manifestPath source.path file.1 = some details.path := by
  rw [Source.found, SourceTree.crawl_eq] at few here
  obtain ⟨files, made, rfl⟩ := Option.map_eq_some_iff.mp built
  have distinct : (files.map Prod.fst).Nodup := by
    rw [keys_of_mapM made]
    exact nodup_ids few
  obtain ⟨entry, mem, described⟩ :=
    exists_mem_of_mapM made (List.mem_zipIdx_iff_getElem?.mpr here : (file, index) ∈ _)
  obtain ⟨path, has, rfl⟩ := Option.map_eq_some_iff.mp described
  exact ⟨_, lookup_foldl_insert distinct mem, has⟩

/-! ## The way back -/

theorem openedPath_congr {details details' : FileDetail} (same : details.path = details'.path) :
    openedPath source details = openedPath source details' := by
  unfold openedPath
  rw [same]

/-- No file is found twice. -/
theorem nodup_found (source : DiskSource) (recursive : Bool) :
    ((source.found recursive).1.map Prod.fst).Nodup := by
  rw [Source.found, SourceTree.crawl_eq]
  cases tree : source.tree with
  | missing => exact List.nodup_nil
  | file contents => exact List.nodup_singleton _
  | dir entries =>
      cases recursive with
      | true => exact (crawled_filesAndDirs (source.distinct entries tree) source.path).files_once
      | false =>
          exact (crawledFlat_filesAndDirs (source.distinct entries tree) source.path).files_once

theorem eq_of_found {source : DiskSource} {recursive : Bool} {index index' : Nat}
    {file file' : Path × Bytes} (here : (source.found recursive).1[index]? = some file)
    (there : (source.found recursive).1[index']? = some file') (same : file.1 = file'.1) :
    index = index' := by
  have first : ((source.found recursive).1.map Prod.fst)[index]? = some file.1 := by
    rw [List.getElem?_map, here, Option.map_some]
  have second : ((source.found recursive).1.map Prod.fst)[index']? = some file.1 := by
    rw [List.getElem?_map, there, Option.map_some, same]
  obtain ⟨inside, -⟩ := List.getElem?_eq_some_iff.mp first
  exact (List.getElem?_inj inside (nodup_found source recursive)).mp (first.trans second.symm)

/-- A file below a directory that is found. -/
theorem exists_names_of_found {entries : Listing} {recursive : Bool}
    (is_dir : source.tree = .dir entries) (mem : file ∈ (source.found recursive).1) :
    ∃ names, names ≠ [] ∧ file.1 = source.path ++ Path.ofNames names ∧
      manifestPath source.path file.1 = some (textOf names) := by
  rw [Source.found, SourceTree.crawl_eq, is_dir] at mem
  obtain ⟨names, name, shape, -⟩ := Listing.mem_filesAndDirs mem
  refine ⟨names ++ [name], List.concat_ne_nil _ _, shape, ?_⟩
  rw [shape]
  exact manifestPath_append source.path names name

/-- With an id of its own, a file is opened if and only if its relative path is UTF-8. -/
theorem opens_iff {entries : Listing} (is_dir : source.tree = .dir entries)
    (built : buildManifest options hash drawn source = some manifest)
    (few : (source.found options.recursive).1.length ≤ 2 ^ 32)
    (here : (source.found options.recursive).1[index]? = some file) :
    (∃ details, manifest.files.lookup (UInt32.ofNat index) = some details ∧
        openedPath source details = file.1) ↔
      ∀ relative, file.1.stripPrefix source.path = some relative →
        isUtf8 relative.bytes = true := by
  obtain ⟨details, found, path⟩ := lookup_buildManifest built few here
  obtain ⟨names, nonempty, shape, text⟩ :=
    exists_names_of_found is_dir (List.mem_of_getElem? here)
  have text : details.path = textOf names := Option.some.inj (path.symm.trans text)
  have opened : openedPath source details = source.path.join (Path.components (textOf names)) := by
    unfold openedPath
    rw [is_dir, text]
  have back := @join_components_textOf_iff source.path names nonempty
  rw [← opened] at back
  rw [shape, Path.stripPrefix_append]
  constructor
  · intro holds relative same
    obtain ⟨details', found', opened'⟩ := holds
    cases same
    obtain rfl : details' = details := Option.some.inj (found'.symm.trans found)
    exact back.mp opened'
  · exact fun texts => ⟨details, found, back.mpr (texts _ rfl)⟩

/-- Different files have different paths where each is opened. -/
theorem leadsBack_of_opens {source : DiskSource} {recursive : Bool}
    (opens : ∀ index file, (source.found recursive).1[index]? = some file →
      ∃ details, manifest.files.lookup (UInt32.ofNat index) = some details ∧
        openedPath source.toSource details = file.1) :
    LeadsBack source.toSource (source.found recursive).1 manifest := by
  refine ⟨opens, ?_⟩
  intro index index' file file' details details' different here there looked looked' same
  obtain ⟨own, found, opened⟩ := opens index file here
  obtain ⟨own', found', opened'⟩ := opens index' file' there
  obtain rfl : own = details := Option.some.inj (found.symm.trans looked)
  obtain rfl : own' = details' := Option.some.inj (found'.symm.trans looked')
  exact different (eq_of_found here there (opened ▸ opened' ▸ openedPath_congr same))

/-- **The manifest leads back to the files** if and only if the source is no directory, or
there are no more files than ids and the relative path of each is UTF-8. -/
theorem leadsBack_iff (source : DiskSource)
    (built : buildManifest options hash drawn source.toSource = some manifest) :
    LeadsBack source.toSource (source.found options.recursive).1 manifest ↔
      ((∃ entries, source.tree = .dir entries) →
        Addressable source.toSource (source.found options.recursive).1) := by
  constructor
  · intro back holds
    obtain ⟨entries, is_dir⟩ := holds
    have few : (source.found options.recursive).1.length ≤ 2 ^ 32 := by
      by_contra! many
      -- the first file and the one that gets its id
      have here := List.getElem?_eq_getElem (Nat.lt_trans (by decide : 0 < 2 ^ 32) many)
      have there := List.getElem?_eq_getElem many
      obtain ⟨details, found, opened⟩ := back.opens _ _ here
      obtain ⟨details', found', opened'⟩ := back.opens _ _ there
      obtain rfl : details = details' := Option.some.inj (found.symm.trans found')
      cases eq_of_found here there (opened.symm.trans opened')
    refine ⟨few, fun file mem => ?_⟩
    obtain ⟨index, here⟩ := List.mem_iff_getElem?.mp mem
    exact (opens_iff is_dir built few here).mp (back.opens index file here)
  · intro addressable
    apply leadsBack_of_opens
    intro index file here
    cases tree : source.tree with
    | missing =>
        rw [Source.found, SourceTree.crawl_eq, tree] at here
        cases here
    | file contents =>
        have alone : (source.found options.recursive).1 = [(source.path, contents)] := by
          rw [Source.found, SourceTree.crawl_eq, tree]
          rfl
        have few : (source.found options.recursive).1.length ≤ 2 ^ 32 := by
          rw [alone, List.length_singleton]
          decide
        obtain ⟨details, found, -⟩ := lookup_buildManifest built few here
        refine ⟨details, found, ?_⟩
        have mem := List.mem_of_getElem? here
        rw [alone, List.mem_singleton] at mem
        unfold openedPath
        rw [tree, mem]
    | dir entries =>
        obtain ⟨few, texts⟩ := addressable ⟨entries, tree⟩
        exact (opens_iff tree built few here).mpr (texts file (List.mem_of_getElem? here))

/-! ## Examples -/

/-- The directory `c` with the file `s/x`. -/
def nestedDisk : DiskSource where
  toSource := nestedSource
  distinct := by
    intro entries is_dir
    cases is_dir
    exact ⟨List.not_mem_nil, ⟨List.not_mem_nil, trivial⟩, trivial⟩

theorem leadsBack_iff_nested :
    LeadsBack nestedSource (nestedDisk.found true).1 nestedManifest := by
  refine (leadsBack_iff nestedDisk built_nestedManifest).mpr fun _ => ⟨by decide, ?_⟩
  intro file mem relative same
  cases List.mem_singleton.mp mem
  cases same
  exact isUtf8_iff.mpr ⟨['s', '/', 'x'], by decide⟩

/-- The directory `c` with two files whose names are no text. -/
def untextDisk : DiskSource where
  path := [.normal [99]]
  tree := .dir (.file (osName 0xFE ⟨by decide, by decide, by decide, by decide⟩) [1]
    (.file (osName 0xFF ⟨by decide, by decide, by decide, by decide⟩) [2] .nil))
  named := by
    intro contents holds
    cases holds
  distinct := by
    intro entries is_dir
    cases is_dir
    refine ⟨fun mem => ?_, List.not_mem_nil, trivial⟩
    cases List.mem_singleton.mp mem

/-- What the manifest has of both. -/
def untextDetail : FileDetail := ⟨replacement, 1, none, ⟨0, [], []⟩⟩

def untextManifest : Manifest :=
  ⟨[], (AList.singleton 0 untextDetail).insert 1 untextDetail⟩

/-- Neither is opened, and in the manifest they have one path. -/
theorem untext_names_merge :
    buildManifest recursively id (fun _ => []) untextDisk.toSource = some untextManifest ∧
      ¬ LeadsBack untextDisk.toSource (untextDisk.found true).1 untextManifest ∧
      untextManifest.files.lookup 0 = untextManifest.files.lookup 1 := by
  refine ⟨rfl, fun back => ?_, rfl⟩
  obtain ⟨details, found, opened⟩ := back.opens 0 _ rfl
  cases found
  revert opened
  decide

end Cccp
