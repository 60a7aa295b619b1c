import Cccp.Lib.ParentsFirst
import Cccp.ParentDirectories

/-!
# The crawl

`files_and_dirs` pushes what it finds to two vectors, which its recursion shares.  A
`DirectoryTree` is what it crawls, in the order in which the directories are read;
`Listing.Below` says what is in it, in no order.

`crawl_complete`: it finds every file and every directory once, each directory after its
parent, and the manifest keeps that order, so that the receiver creates each directory in
one that exists.
-/

namespace Cccp

/-! ## The crawl with its vectors -/

/-- The loop of `files_and_dirs` over a directory at `path`. -/
def Listing.crawl (recursive : Bool) (path : Path) : Listing → Found → Found
  | .nil, found => found
  | .file name contents rest, found =>
      rest.crawl recursive path
        (found.1 ++ [(path ++ [.normal name.bytes], contents)], found.2)
  | .dir name entries rest, found =>
      let dir := path ++ [.normal name.bytes]
      rest.crawl recursive path
        (if recursive then entries.crawl recursive dir (found.1, found.2 ++ [dir]) else found)

/-- `files_and_dirs` -/
def SourceTree.crawl (recursive : Bool) (path : Path) (found : Found) : SourceTree → Found
  | .missing => found
  | .file contents => (found.1 ++ [(path, contents)], found.2)
  | .dir entries => entries.crawl recursive path found

theorem Listing.crawl_eq (recursive : Bool) (entries : Listing) (path : Path) (found : Found) :
    entries.crawl recursive path found =
      (found.1 ++ (entries.filesAndDirs recursive path).1,
        found.2 ++ (entries.filesAndDirs recursive path).2) := by
  induction entries generalizing path found with
  | nil => simp [crawl, filesAndDirs]
  | file name contents rest ih => simp [crawl, filesAndDirs, ih]
  | dir name entries rest inner_ih ih =>
      cases recursive <;> simp [crawl, filesAndDirs, ih, inner_ih]

theorem SourceTree.crawl_eq (recursive : Bool) (tree : SourceTree) (path : Path) :
    tree.crawl recursive path ([], []) = tree.filesAndDirs recursive path := by
  cases tree with
  | missing | file => rfl
  | dir entries => exact entries.crawl_eq recursive path ([], [])

/-! ## What is in a directory -/

inductive Listing.Node where
  | file (contents : Bytes)
  | dir

/-- What is below a directory, by the names that lead to it. -/
inductive Listing.Below : Listing → List OsName → Node → Prop
  | file {name : OsName} {contents : Bytes} {rest : Listing} :
      Below (.file name contents rest) [name] (.file contents)
  | dir {name : OsName} {entries rest : Listing} : Below (.dir name entries rest) [name] .dir
  | inside {name : OsName} {entries rest : Listing} {names : List OsName} {node : Node}
      (below : Below entries names node) : Below (.dir name entries rest) (name :: names) node
  | afterFile {name : OsName} {contents : Bytes} {rest : Listing} {names : List OsName}
      {node : Node} (below : Below rest names node) :
      Below (.file name contents rest) names node
  | afterDir {name : OsName} {entries rest : Listing} {names : List OsName} {node : Node}
      (below : Below rest names node) : Below (.dir name entries rest) names node

/-- The names of the entries. -/
def Listing.names : Listing → List OsName
  | .nil => []
  | .file name _ rest => name :: rest.names
  | .dir name _ rest => name :: rest.names

/-- No directory has two entries of one name. -/
def Listing.Distinct : Listing → Prop
  | .nil => True
  | .file name _ rest => name ∉ rest.names ∧ rest.Distinct
  | .dir name entries rest => name ∉ rest.names ∧ entries.Distinct ∧ rest.Distinct

structure DirectoryTree where
  entries : Listing
  distinct : entries.Distinct

/-! ## The names of what is found -/

namespace Listing

def fileNames : Listing → List (List OsName × Bytes)
  | .nil => []
  | .file name contents rest => ([name], contents) :: rest.fileNames
  | .dir name entries rest =>
      entries.fileNames.map (fun file => (name :: file.1, file.2)) ++ rest.fileNames

def dirNames : Listing → List (List OsName)
  | .nil => []
  | .file _ _ rest => rest.dirNames
  | .dir name entries rest => ([name] :: entries.dirNames.map (name :: ·)) ++ rest.dirNames

/-- The files of the directory itself. -/
def ownFiles : Listing → List (OsName × Bytes)
  | .nil => []
  | .file name contents rest => (name, contents) :: rest.ownFiles
  | .dir _ _ rest => rest.ownFiles

theorem filesAndDirs_recursive (entries : Listing) (path : Path) :
    entries.filesAndDirs true path =
      (entries.fileNames.map fun file => (path ++ Path.ofNames file.1, file.2),
        entries.dirNames.map fun names => path ++ Path.ofNames names) := by
  induction entries generalizing path with
  | nil => rfl
  | file name contents rest ih =>
      rw [filesAndDirs, ih]
      rfl
  | dir name entries rest inner_ih ih =>
      simp [filesAndDirs, ih, inner_ih, fileNames, dirNames, Path.ofNames]

theorem filesAndDirs_flat (entries : Listing) (path : Path) :
    entries.filesAndDirs false path =
      (entries.ownFiles.map fun file => (path ++ Path.ofNames [file.1], file.2), []) := by
  induction entries with
  | nil => rfl
  | file name contents rest ih =>
      rw [filesAndDirs, ih]
      rfl
  | dir name entries rest inner_ih ih => exact ih

variable {entries : Listing} {names : List OsName} {name : OsName} {contents : Bytes} {node : Node}

theorem Below.head (below : entries.Below names node) :
    ∃ name rest, names = name :: rest ∧ name ∈ entries.names := by
  induction below with
  | file | dir => exact ⟨_, _, rfl, List.mem_cons_self⟩
  | inside => exact ⟨_, _, rfl, List.mem_cons_self⟩
  | afterFile _ ih | afterDir _ ih =>
      obtain ⟨name, rest, same, mem⟩ := ih
      exact ⟨name, rest, same, List.mem_cons_of_mem _ mem⟩

theorem mem_fileNames_iff : (names, contents) ∈ entries.fileNames ↔
    entries.Below names (.file contents) := by
  constructor
  · intro mem
    induction entries generalizing names with
    | nil => cases mem
    | file name own rest ih =>
        rcases List.mem_cons.mp mem with same | mem
        · cases same
          exact .file
        · exact .afterFile (ih mem)
    | dir name entries rest inner_ih ih =>
        rcases List.mem_append.mp mem with mem | mem
        · obtain ⟨⟨inner, own⟩, inside, same⟩ := List.mem_map.mp mem
          cases same
          exact .inside (inner_ih inside)
        · exact .afterDir (ih mem)
  · intro below
    generalize kind : Node.file contents = node at below
    induction below with
    | file =>
        cases kind
        exact List.mem_cons_self
    | dir => cases kind
    | inside _ ih => exact List.mem_append_left _ (List.mem_map.mpr ⟨_, ih kind, rfl⟩)
    | afterFile _ ih => exact List.mem_cons_of_mem _ (ih kind)
    | afterDir _ ih => exact List.mem_append_right _ (ih kind)

theorem mem_dirNames_iff : names ∈ entries.dirNames ↔ entries.Below names .dir := by
  constructor
  · intro mem
    induction entries generalizing names with
    | nil => cases mem
    | file name own rest ih => exact .afterFile (ih mem)
    | dir name entries rest inner_ih ih =>
        rcases List.mem_append.mp mem with mem | mem
        · rcases List.mem_cons.mp mem with rfl | mem
          · exact .dir
          · obtain ⟨inner, inside, rfl⟩ := List.mem_map.mp mem
            exact .inside (inner_ih inside)
        · exact .afterDir (ih mem)
  · intro below
    generalize kind : Node.dir = node at below
    induction below with
    | file => cases kind
    | dir => exact List.mem_cons_self
    | inside _ ih =>
        exact List.mem_append_left _ (List.mem_cons_of_mem _ (List.mem_map_of_mem (ih kind)))
    | afterFile _ ih => exact ih kind
    | afterDir _ ih => exact List.mem_append_right _ (ih kind)

theorem mem_ownFiles_iff : (name, contents) ∈ entries.ownFiles ↔
    entries.Below [name] (.file contents) := by
  induction entries with
  | nil =>
      constructor
      · intro mem
        cases mem
      · intro below
        cases below
  | file other own rest ih =>
      constructor
      · intro mem
        rcases List.mem_cons.mp mem with same | mem
        · cases same
          exact .file
        · exact .afterFile (ih.mp mem)
      · intro below
        cases below with
        | file => exact List.mem_cons_self
        | afterFile below => exact List.mem_cons_of_mem _ (ih.mpr below)
  | dir other inner rest _ ih =>
      constructor
      · exact fun mem => .afterDir (ih.mp mem)
      · intro below
        cases below with
        | inside below =>
            obtain ⟨_, _, same, -⟩ := below.head
            cases same
        | afterDir below => exact ih.mpr below

/-! ## Once each -/

/-- Names below an entry begin with its name, and those below the others do not. -/
theorem ne_of_notMem {rest : Listing} {inner : List OsName} (fresh : name ∉ rest.names)
    (below : rest.Below names node) : names ≠ name :: inner := by
  obtain ⟨head, tail, rfl, mem⟩ := below.head
  intro same
  obtain ⟨rfl, -⟩ := List.cons.inj same
  exact fresh mem

theorem nodup_dirNames (distinct : entries.Distinct) : entries.dirNames.Nodup := by
  induction entries with
  | nil => exact List.nodup_nil
  | file name own rest ih => exact ih distinct.2
  | dir name entries rest inner_ih ih =>
      obtain ⟨fresh, inner, distinct⟩ := distinct
      refine List.nodup_append.mpr ⟨List.nodup_cons.mpr ⟨?_, ?_⟩, ih distinct, ?_⟩
      · intro mem
        obtain ⟨names, mem, same⟩ := List.mem_map.mp mem
        obtain ⟨_, _, rfl, -⟩ := (mem_dirNames_iff.mp mem).head
        cases same
      · exact (inner_ih inner).map (List.cons_injective)
      · intro names mem other mem' same
        subst same
        have below := mem_dirNames_iff.mp mem'
        rcases List.mem_cons.mp mem with rfl | mem
        · exact ne_of_notMem fresh below rfl
        · obtain ⟨inner, -, rfl⟩ := List.mem_map.mp mem
          exact ne_of_notMem fresh below rfl

theorem nodup_fileNames (distinct : entries.Distinct) :
    (entries.fileNames.map Prod.fst).Nodup := by
  induction entries with
  | nil => exact List.nodup_nil
  | file name own rest ih =>
      refine List.nodup_cons.mpr ⟨fun mem => ?_, ih distinct.2⟩
      obtain ⟨⟨names, contents⟩, mem, rfl⟩ := List.mem_map.mp mem
      exact ne_of_notMem distinct.1 (mem_fileNames_iff.mp mem) rfl
  | dir name entries rest inner_ih ih =>
      obtain ⟨fresh, inner, distinct⟩ := distinct
      have own : (entries.fileNames.map fun file => (name :: file.1, file.2)).map Prod.fst =
          (entries.fileNames.map Prod.fst).map (name :: ·) := by
        rw [List.map_map, List.map_map]
        rfl
      rw [fileNames, List.map_append, own]
      refine List.nodup_append.mpr ⟨(inner_ih inner).map List.cons_injective, ih distinct, ?_⟩
      intro names mem other mem' same
      subst same
      obtain ⟨inner, -, rfl⟩ := List.mem_map.mp mem
      obtain ⟨⟨names, contents⟩, mem', same⟩ := List.mem_map.mp mem'
      exact ne_of_notMem fresh (mem_fileNames_iff.mp mem') same

theorem nodup_ownFiles (distinct : entries.Distinct) :
    (entries.ownFiles.map Prod.fst).Nodup := by
  induction entries with
  | nil => exact List.nodup_nil
  | file name own rest ih =>
      refine List.nodup_cons.mpr ⟨fun mem => ?_, ih distinct.2⟩
      obtain ⟨⟨other, contents⟩, listed, rfl⟩ := List.mem_map.mp mem
      exact ne_of_notMem distinct.1 (mem_ownFiles_iff.mp listed) rfl
  | dir name entries rest _ ih => exact ih distinct.2.2

/-- Each directory comes after the one it is in. -/
theorem parentsFirst_dirNames : ParentsFirst [[]] entries.dirNames := by
  induction entries with
  | nil => trivial
  | file name own rest ih => exact ih
  | dir name entries rest inner_ih ih =>
      refine ParentsFirst.append ⟨List.mem_singleton_self _, ?_⟩ ih
      have moved : ParentsFirst ([[]].map (name :: ·)) (entries.dirNames.map (name :: ·)) := by
        apply inner_ih.map _
        intro names mem
        obtain ⟨_, _, rfl, -⟩ := (mem_dirNames_iff.mp mem).head
        rfl
      exact moved.mono (List.subset_append_left [[name]] _)

end Listing

/-! ## The whole crawl -/

/-- What is found of a directory: every file and every directory below it, once each, and each
directory after its parent. -/
structure Crawled (entries : Listing) (root : Path) (found : Found) : Prop where
  files : ∀ path contents, (path, contents) ∈ found.1 ↔
    ∃ names, entries.Below names (.file contents) ∧ path = root ++ Path.ofNames names
  files_once : (found.1.map Prod.fst).Nodup
  dirs : ∀ path, path ∈ found.2 ↔
    ∃ names, entries.Below names .dir ∧ path = root ++ Path.ofNames names
  dirs_once : found.2.Nodup
  parents_first : ParentsFirst [root] found.2

/-- What is found without recursion: the files of the directory itself. -/
structure CrawledFlat (entries : Listing) (root : Path) (found : Found) : Prop where
  files : ∀ path contents, (path, contents) ∈ found.1 ↔
    ∃ name, entries.Below [name] (.file contents) ∧ path = root ++ Path.ofNames [name]
  files_once : (found.1.map Prod.fst).Nodup
  dirs : found.2 = []

/-- The manifest lists the directories relative to the source, in their order, and when the
receiver creates one of them, the directory it is in exists. -/
structure ListsDirectories (root : Path) (dirs : List Path) (manifest : Manifest) : Prop where
  relative : ∃ relatives : List (List OsName),
    dirs = relatives.map (fun names => root ++ Path.ofNames names) ∧
      manifest.directories = relatives.map textOf
  parent_exists : ∀ options before dir after disk disk',
    localDirectories options manifest = options.destination :: before ++ dir :: after →
      FileSystem.createMissing disk (options.destination :: before) = some disk' →
        disk'.exists_ dir.dropLast = true

variable {entries : Listing} {root : Path}

theorem ofNames_injective : Function.Injective Path.ofNames := by
  apply List.map_injective_iff.mpr
  intro name name' same
  obtain ⟨bytes, is_name⟩ := name
  obtain ⟨bytes', is_name'⟩ := name'
  cases same
  rfl

theorem path_injective (root : Path) :
    Function.Injective fun names : List OsName => root ++ Path.ofNames names :=
  fun _ _ same => ofNames_injective (List.append_cancel_left same)

theorem dropLast_ofNames (root : Path) {names : List OsName} (nonempty : names ≠ []) :
    (root ++ Path.ofNames names).dropLast = root ++ Path.ofNames names.dropLast := by
  have some_ : Path.ofNames names ≠ [] := by
    rwa [Path.ofNames, ne_eq, List.map_eq_nil_iff]
  rw [List.dropLast_append_of_ne_nil some_, Path.ofNames, Path.ofNames, List.map_dropLast]

theorem nonempty_of_mem_dirNames {names : List OsName} (mem : names ∈ entries.dirNames) :
    names ≠ [] := by
  obtain ⟨_, _, rfl, -⟩ := (Listing.mem_dirNames_iff.mp mem).head
  exact List.cons_ne_nil _ _

theorem crawled_filesAndDirs (distinct : entries.Distinct) (root : Path) :
    Crawled entries root (entries.filesAndDirs true root) := by
  rw [Listing.filesAndDirs_recursive]
  refine ⟨fun path contents => ?_, ?_, fun path => ?_, ?_, ?_⟩
  · constructor
    · intro mem
      obtain ⟨⟨names, own⟩, listed, same⟩ := List.mem_map.mp mem
      cases same
      exact ⟨names, Listing.mem_fileNames_iff.mp listed, rfl⟩
    · intro holds
      obtain ⟨names, below, rfl⟩ := holds
      exact List.mem_map.mpr ⟨_, Listing.mem_fileNames_iff.mpr below, rfl⟩
  · have paths : (entries.fileNames.map fun file => (root ++ Path.ofNames file.1, file.2)).map
        Prod.fst =
          (entries.fileNames.map Prod.fst).map fun names => root ++ Path.ofNames names := by
      rw [List.map_map, List.map_map]
      rfl
    rw [paths]
    exact (Listing.nodup_fileNames distinct).map (path_injective root)
  · constructor
    · intro mem
      obtain ⟨names, listed, rfl⟩ := List.mem_map.mp mem
      exact ⟨names, Listing.mem_dirNames_iff.mp listed, rfl⟩
    · intro holds
      obtain ⟨names, below, rfl⟩ := holds
      exact List.mem_map_of_mem (Listing.mem_dirNames_iff.mpr below)
  · exact (Listing.nodup_dirNames distinct).map (path_injective root)
  · have moved : ParentsFirst [root ++ Path.ofNames []]
        (entries.dirNames.map fun names => root ++ Path.ofNames names) :=
      Listing.parentsFirst_dirNames.map (fun names => root ++ Path.ofNames names)
        fun names mem => dropLast_ofNames root (nonempty_of_mem_dirNames mem)
    rwa [Path.ofNames, List.map_nil, List.append_nil] at moved

theorem crawledFlat_filesAndDirs (distinct : entries.Distinct) (root : Path) :
    CrawledFlat entries root (entries.filesAndDirs false root) := by
  rw [Listing.filesAndDirs_flat]
  refine ⟨fun path contents => ?_, ?_, rfl⟩
  · constructor
    · intro mem
      obtain ⟨⟨name, own⟩, listed, same⟩ := List.mem_map.mp mem
      cases same
      exact ⟨name, Listing.mem_ownFiles_iff.mp listed, rfl⟩
    · intro holds
      obtain ⟨name, below, rfl⟩ := holds
      exact List.mem_map.mpr ⟨_, Listing.mem_ownFiles_iff.mpr below, rfl⟩
  · have paths : (entries.ownFiles.map fun file => (root ++ Path.ofNames [file.1], file.2)).map
        Prod.fst = (entries.ownFiles.map Prod.fst).map fun name => root ++ Path.ofNames [name] := by
      rw [List.map_map, List.map_map]
      rfl
    rw [paths]
    apply (Listing.nodup_ownFiles distinct).map
    intro name name' same
    exact (List.cons.inj (path_injective root same)).1

/-! ## The directories of the manifest -/

theorem manifestDirectory_append (root : Path) (names : List OsName) :
    manifestDirectory root (root ++ Path.ofNames names) = textOf names := by
  rw [manifestDirectory, Path.stripPrefix_append]
  exact toStringLossy_ofNames names

/-- Where the receiver puts a directory. -/
def receivedAt (destination : Path) (names : List OsName) : Path :=
  destination.join (Path.components (textOf names))

theorem receivedAt_eq (destination : Path) (names : List OsName) :
    receivedAt destination names =
      destination.join (names.map fun name => .normal (toStringLossy name.bytes)) := by
  cases names with
  | nil => rfl
  | cons name names => rw [receivedAt, components_textOf (List.cons_ne_nil name names)]

theorem dropLast_receivedAt (destination : Path) {names : List OsName} (nonempty : names ≠ []) :
    (receivedAt destination names).dropLast = receivedAt destination names.dropLast := by
  obtain ⟨parents, name, rfl⟩ := (List.eq_nil_or_concat' names).resolve_left nonempty
  rw [List.dropLast_concat, receivedAt_eq, receivedAt_eq, List.map_append, List.map_singleton,
    Path.join_concat_normal, List.dropLast_concat]

/-- The receiver puts each directory behind the one it is in. -/
theorem parentsFirst_receivedAt (destination : Path) {relatives : List (List OsName)}
    (nonempty : ∀ names ∈ relatives, names ≠ []) (first : ParentsFirst [[]] relatives) :
    ParentsFirst [destination] (relatives.map (receivedAt destination)) := by
  have moved : ParentsFirst [receivedAt destination []] (relatives.map (receivedAt destination)) :=
    first.map _ fun names mem => dropLast_receivedAt destination (nonempty names mem)
  have self : receivedAt destination [] = destination := List.append_nil destination
  rwa [self] at moved

theorem listsDirectories {options : ManifestOptions} {hash : Bytes → Bytes}
    {drawn : Nat → Bytes} {source : Source} {manifest : Manifest}
    (is_dir : source.tree = .dir entries)
    (built : buildManifest options hash drawn source = some manifest) :
    ListsDirectories source.path (source.tree.filesAndDirs options.recursive source.path).2
      manifest := by
  obtain ⟨files, -, rfl⟩ := Option.map_eq_some_iff.mp built
  obtain ⟨relatives, found, nonempty, first⟩ : ∃ relatives : List (List OsName),
      (source.tree.filesAndDirs options.recursive source.path).2 =
          relatives.map (fun names => source.path ++ Path.ofNames names) ∧
        (∀ names ∈ relatives, names ≠ []) ∧ ParentsFirst [[]] relatives := by
    rw [is_dir]
    change ∃ relatives : List (List OsName),
      (entries.filesAndDirs options.recursive source.path).2 = _ ∧ _
    cases options.recursive with
    | true =>
        rw [Listing.filesAndDirs_recursive]
        exact ⟨entries.dirNames, rfl, fun names => nonempty_of_mem_dirNames,
          Listing.parentsFirst_dirNames⟩
    | false =>
        rw [Listing.filesAndDirs_flat]
        exact ⟨[], rfl, fun names mem => absurd mem List.not_mem_nil, trivial⟩
  have directories : ((source.tree.filesAndDirs options.recursive source.path).2.map
      (manifestDirectory source.path)) = relatives.map textOf := by
    rw [found, List.map_map]
    exact List.map_congr_left fun names _ => manifestDirectory_append source.path names
  refine ⟨⟨relatives, found, directories⟩, ?_⟩
  intro receiver before dir after disk disk' listed made
  have behind : relatives.map (receivedAt receiver.destination) = before ++ dir :: after := by
    have behind := (List.cons.inj listed).2
    rwa [directories, List.map_map] at behind
  have moved := parentsFirst_receivedAt receiver.destination nonempty first
  rw [behind] at moved
  apply FileSystem.createMissing_exists made
  rcases moved.mem_before with mem | mem
  · exact List.mem_cons.mpr (.inl (List.mem_singleton.mp mem))
  · exact List.mem_cons_of_mem _ mem

/-- **The crawl is complete.**  With `recursive` it finds every file and every directory below
the root, once each, and each directory after its parent; without, the files in the root.  The
manifest lists the directories in that order, and when the receiver creates one, the directory
it is in exists. -/
theorem crawl_complete (tree : DirectoryTree) (source : Source)
    (is_dir : source.tree = .dir tree.entries) :
    Crawled tree.entries source.path (source.tree.crawl true source.path ([], [])) ∧
      CrawledFlat tree.entries source.path (source.tree.crawl false source.path ([], [])) ∧
      ∀ options hash drawn manifest, buildManifest options hash drawn source = some manifest →
        ListsDirectories source.path
          (source.tree.crawl options.recursive source.path ([], [])).2 manifest := by
  refine ⟨?_, ?_, fun options hash drawn manifest built => ?_⟩
  · rw [SourceTree.crawl_eq, is_dir]
    exact crawled_filesAndDirs tree.distinct source.path
  · rw [SourceTree.crawl_eq, is_dir]
    exact crawledFlat_filesAndDirs tree.distinct source.path
  · rw [SourceTree.crawl_eq]
    exact listsDirectories is_dir built

/-- The directory `t` has the file `y` and the directory `u` with the file `z`. -/
def deepListing : Listing :=
  .dir (osName 116 ⟨by decide, by decide, by decide, by decide⟩)
    (.file (osName 121 ⟨by decide, by decide, by decide, by decide⟩) [1]
      (.dir (osName 117 ⟨by decide, by decide, by decide, by decide⟩)
        (.file (osName 122 ⟨by decide, by decide, by decide, by decide⟩) [2] .nil) .nil)) .nil

def deepTree : DirectoryTree where
  entries := deepListing
  distinct := by
    refine ⟨List.not_mem_nil, ⟨?_, List.not_mem_nil, ⟨List.not_mem_nil, trivial⟩, trivial⟩, trivial⟩
    simp [Listing.names, osName]

def deepSource : Source := ⟨[.normal [99]], .dir deepListing, nofun⟩

/-- The manifest has the directories `t` and `t/u`, and the files `t/y` and `t/u/z`. -/
def deepManifest : Manifest where
  directories := [[116], [116, 47, 117]]
  files := (AList.singleton 0 ⟨[116, 47, 121], 1, none, ⟨0, [], []⟩⟩).insert 1
    ⟨[116, 47, 117, 47, 122], 1, none, ⟨0, [], []⟩⟩

theorem crawl_complete_deep :
    Crawled deepListing [.normal [99]] (deepSource.tree.crawl true [.normal [99]] ([], [])) ∧
      ListsDirectories [.normal [99]]
        [[.normal [99], .normal [116]], [.normal [99], .normal [116], .normal [117]]]
        deepManifest := by
  obtain ⟨crawled, -, lists⟩ := crawl_complete deepTree deepSource rfl
  exact ⟨crawled, lists recursively id (fun _ => []) deepManifest rfl⟩

end Cccp
