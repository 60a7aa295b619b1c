import Cccp.Items
import Cccp.Lib.Collections
import Cccp.Lib.Lossy

/-!
# The manifest

`build_manifest` crawls the source and describes what it finds by paths relative to it.
`mem_buildManifest` says what the manifest has of every file: the path is made of names,
and the directory it is in, if it is not the source itself, is one of the directories.
-/

namespace Cccp

/-! ## The source -/

/-- The name of a directory entry; it need not be text. -/
structure OsName where
  bytes : Bytes
  is_name : IsName bytes

/-- The entries of a directory in the order in which `read_dir` gives them. -/
inductive Listing where
  | nil
  | file (name : OsName) (contents : Bytes) (rest : Listing)
  | dir (name : OsName) (entries rest : Listing)

inductive SourceTree where
  | missing
  | file (contents : Bytes)
  | dir (entries : Listing)

/-- The source and what is there; a file is there under a name. -/
structure Source where
  path : Path
  tree : SourceTree
  named : ∀ contents, tree = .file contents → ∃ parent, ∃ name : OsName,
    path = parent ++ [.normal name.bytes]

/-- The options `build_manifest` consults. -/
structure ManifestOptions where
  recursive : Bool
  verify : Bool
  streamCrypto : Crypto

/-! ## Paths -/

def Component.bytes : Component → Bytes
  | .rootDir => [OsPath.separator]
  | .curDir => [OsPath.dot]
  | .parentDir => [OsPath.dot, OsPath.dot]
  | .normal name => name

namespace Path

/-- The path as it is written. -/
def bytes : Path → Bytes
  | .rootDir :: rest => OsPath.separator :: [OsPath.separator].intercalate (rest.map Component.bytes)
  | path => [OsPath.separator].intercalate (path.map Component.bytes)

/-- `Path::strip_prefix`. -/
def stripPrefix (path base : Path) : Option Path :=
  if base <+: path then some (path.drop base.length) else none

theorem stripPrefix_append (base rest : Path) : (base ++ rest).stripPrefix base = some rest := by
  rw [stripPrefix, if_pos (List.prefix_append base rest), List.drop_left]

/-- A relative path of names. -/
def ofNames (names : List OsName) : Path := names.map fun name => .normal name.bytes

theorem bytes_ofNames (names : List OsName) :
    bytes (ofNames names) = [OsPath.separator].intercalate (names.map OsName.bytes) := by
  have body : (ofNames names).map Component.bytes = names.map OsName.bytes := by
    rw [ofNames, List.map_map]
    rfl
  cases names with
  | nil => rfl
  | cons name names =>
      rw [← body]
      rfl

end Path

/-! ## The crawl -/

/-- The files with their contents, and the directories, in the order they are found. -/
abbrev Found := List (Path × Bytes) × List Path

/-- The loop of `files_and_dirs` over a directory at `path`. -/
def Listing.filesAndDirs (recursive : Bool) (path : Path) : Listing → Found
  | .nil => ([], [])
  | .file name contents rest =>
      let more := filesAndDirs recursive path rest
      ((path ++ [.normal name.bytes], contents) :: more.1, more.2)
  | .dir name entries rest =>
      let more := filesAndDirs recursive path rest
      if recursive then
        let inner := filesAndDirs recursive (path ++ [.normal name.bytes]) entries
        (inner.1 ++ more.1, (path ++ [.normal name.bytes]) :: inner.2 ++ more.2)
      else more

/-- `files_and_dirs` -/
def SourceTree.filesAndDirs (recursive : Bool) (path : Path) : SourceTree → Found
  | .missing => ([], [])
  | .file contents => ([(path, contents)], [])
  | .dir entries => entries.filesAndDirs recursive path

/-! ## The manifest -/

/-- The path of a file in the manifest; `none` is `EmptyPath`, or no path below the source. -/
def manifestPath (source file : Path) : Option Bytes :=
  if file = source then file.getLast?.map fun last => toStringLossy last.bytes
  else (file.stripPrefix source).map fun relative => toStringLossy relative.bytes

/-- The path of a directory in the manifest. -/
def manifestDirectory (source dir : Path) : Bytes :=
  match dir.stripPrefix source with
  | some relative => toStringLossy relative.bytes
  | none => toStringLossy dir.bytes

/-- `Crypto::random_iv`, with the bytes it draws; without a cipher it draws none. -/
def Crypto.randomIv (crypto : Crypto) (drawn : Bytes) : Crypto :=
  if crypto.cipher = 0 then crypto else { crypto with iv := drawn }

/-- What the manifest has of the file found at `index`. -/
def manifestFile (options : ManifestOptions) (hash : Bytes → Bytes) (drawn : Nat → Bytes)
    (source : Path) (found : (Path × Bytes) × Nat) : Option (UInt32 × FileDetail) :=
  (manifestPath source found.1.1).map fun path =>
    (UInt32.ofNat found.2,
      { path := path
        size := UInt64.ofNat found.1.2.length
        signature := if options.verify then some (hash found.1.2) else none
        crypto := options.streamCrypto.randomIv (drawn found.2) })

def buildManifest (options : ManifestOptions) (hash : Bytes → Bytes) (drawn : Nat → Bytes)
    (source : Source) : Option Manifest :=
  let found := source.tree.filesAndDirs options.recursive source.path
  (found.1.zipIdx.mapM (manifestFile options hash drawn source.path)).map fun files =>
    { directories := found.2.map (manifestDirectory source.path)
      files := files.foldl (fun map file => map.insert file.1 file.2) ∅ }

/-! ## What is in it -/

/-- The directory of a file that is found is the one that is crawled, or one of the
directories that are found. -/
theorem Listing.mem_filesAndDirs {recursive : Bool} {entries : Listing} {path : Path}
    {file : Path × Bytes} (mem : file ∈ (entries.filesAndDirs recursive path).1) :
    ∃ (names : List OsName) (name : OsName),
      file.1 = path ++ Path.ofNames (names ++ [name]) ∧
        (names = [] ∨ path ++ Path.ofNames names ∈ (entries.filesAndDirs recursive path).2) := by
  induction entries generalizing path with
  | nil => cases mem
  | file name contents rest ih =>
      rcases List.mem_cons.mp mem with rfl | mem
      · exact ⟨[], name, rfl, .inl rfl⟩
      · exact ih mem
  | dir name entries rest inner_ih ih =>
      rw [filesAndDirs] at mem ⊢
      dsimp only at mem ⊢
      split at mem
      next recursion =>
        rw [if_pos recursion]
        rcases List.mem_append.mp mem with mem | mem
        · obtain ⟨names, last, shape, listed⟩ := inner_ih mem
          have inside : ∀ more : List OsName, path ++ [.normal name.bytes] ++ Path.ofNames more =
              path ++ Path.ofNames (name :: more) := fun more => List.append_assoc _ _ _
          refine ⟨name :: names, last, shape.trans (inside _), .inr ?_⟩
          rw [← inside]
          rcases listed with rfl | listed
          · exact List.mem_append_left _ (List.append_nil _ ▸ List.mem_cons_self)
          · exact List.mem_append_left _ (List.mem_cons_of_mem _ listed)
        · obtain ⟨names, last, shape, listed⟩ := ih mem
          exact ⟨names, last, shape, listed.imp_right (List.mem_append_right _)⟩
      next recursion =>
        rw [if_neg recursion]
        exact ih mem

/-- A path in the manifest: the text of the names, joined by separators. -/
def textOf (names : List OsName) : Bytes :=
  [OsPath.separator].intercalate (names.map fun name => toStringLossy name.bytes)

theorem toStringLossy_ofNames (names : List OsName) :
    toStringLossy (Path.ofNames names).bytes = textOf names := by
  rw [Path.bytes_ofNames, toStringLossy_intercalate, List.map_map]
  rfl

theorem components_textOf {names : List OsName} (nonempty : names ≠ []) :
    Path.components (textOf names) = names.map fun name => .normal (toStringLossy name.bytes) := by
  have are : ∀ bytes ∈ names.map fun name => toStringLossy name.bytes, IsName bytes := by
    intro bytes mem
    obtain ⟨name, -, rfl⟩ := List.mem_map.mp mem
    exact name.is_name.toStringLossy
  rw [textOf, Path.components_intercalate are (by simpa using nonempty), List.map_map]
  rfl

theorem ofNames_ne_nil {names : List OsName} (name : OsName) :
    Path.ofNames (names ++ [name]) ≠ [] := by
  simp [Path.ofNames]

/-- A file below the source has the text of its names for a path. -/
theorem manifestPath_append (root : Path) (names : List OsName) (name : OsName) :
    manifestPath root (root ++ Path.ofNames (names ++ [name])) =
      some (textOf (names ++ [name])) := by
  have below : root ++ Path.ofNames (names ++ [name]) ≠ root :=
    fun same => ofNames_ne_nil name (List.append_right_eq_self.mp same)
  rw [manifestPath, if_neg below, Path.stripPrefix_append, Option.map_some, toStringLossy_ofNames]

/-- **What the manifest has of a file**: its path is made of names, and where there is more
than one, the names before the last make one of the directories. -/
theorem mem_buildManifest {options : ManifestOptions} {hash : Bytes → Bytes} {drawn : Nat → Bytes}
    {source : Source} {manifest : Manifest}
    (built : buildManifest options hash drawn source = some manifest)
    {entry : (_ : UInt32) × FileDetail} (mem : entry ∈ manifest.files.entries) :
    ∃ (names : List OsName) (name : OsName), entry.2.path = textOf (names ++ [name]) ∧
      (names = [] ∨ textOf names ∈ manifest.directories) := by
  obtain ⟨files, made, rfl⟩ := Option.map_eq_some_iff.mp built
  have listed := (mem_foldl_insert mem).resolve_left (by rintro ⟨⟩)
  obtain ⟨found, mem, made⟩ := exists_of_mem_mapM made listed
  have mem : found.1 ∈ (source.tree.filesAndDirs options.recursive source.path).1 :=
    List.fst_mem_of_mem_zipIdx mem
  obtain ⟨path, here, same⟩ := Option.map_eq_some_iff.mp made
  obtain rfl : path = entry.2.path := congrArg FileDetail.path (Prod.ext_iff.mp same).2
  cases tree : source.tree with
  | missing =>
      rw [tree] at mem
      cases mem
  | file contents =>
      rw [tree] at mem
      have same : found.1.1 = source.path := congrArg Prod.fst (List.mem_singleton.mp mem)
      obtain ⟨parent, name, named⟩ := source.named contents tree
      rw [manifestPath, if_pos same, same, named, List.getLast?_concat] at here
      refine ⟨[], name, ?_, .inl rfl⟩
      rw [← Option.some.inj here]
      simp [textOf, Component.bytes, List.intercalate]
  | dir entries =>
      rw [tree] at mem
      obtain ⟨names, name, shape, parent⟩ := Listing.mem_filesAndDirs mem
      rw [shape, manifestPath_append] at here
      refine ⟨names, name, (Option.some.inj here).symm, parent.imp_right fun mem => ?_⟩
      refine List.mem_map.mpr ⟨_, mem, ?_⟩
      rw [manifestDirectory, Path.stripPrefix_append]
      exact toStringLossy_ofNames names

end Cccp
