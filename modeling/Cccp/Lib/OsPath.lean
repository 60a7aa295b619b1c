import Cccp.Lib.Bytes
import Mathlib.Data.List.Basic

/-!
# Unix paths

The part of Rust's `std::path` that computes on paths: `components`, `join`,
`extension` and `with_extension`.  A path is the list of its components, which is
what Rust compares paths by; a name is a byte string, as in `OsStr` on Unix.

`Path.withExtension_longer` is the rule for the idiom that keeps an extension and
adds another one: it appends to the file name, whatever the shape of the name, unless
the stem of the name is a single dot (`Path.withExtension_dot`).
-/

namespace Cccp

/-! ## Text -/

/-- `str::from_utf8` succeeds on the bytes. -/
def isUtf8 (bytes : Bytes) : Bool :=
  (ByteArray.mk bytes.toArray).validateUTF8

theorem isUtf8_iff {bytes : Bytes} :
    isUtf8 bytes = true ↔ ∃ text : List Char, bytes = text.flatMap String.utf8EncodeChar := by
  rw [isUtf8, ByteArray.validateUTF8_eq_true_iff]
  constructor
  · rintro ⟨text, same⟩
    refine ⟨text, ?_⟩
    have data := congrArg (fun b => b.data.toList) same
    simpa [List.utf8Encode] using data
  · rintro ⟨text, rfl⟩
    refine ⟨text, ?_⟩
    ext1
    simp [List.utf8Encode]

/-- An ASCII byte inside the encoding of a character is that character. -/
theorem utf8EncodeChar_of_mem_ascii {c : Char} {byte : UInt8} (ascii : byte < 128)
    (mem : byte ∈ String.utf8EncodeChar c) : String.utf8EncodeChar c = [byte] := by
  have bound : byte.toNat < 128 := ascii
  have high : ∀ n, 128 ≤ n → n < 256 → byte ≠ UInt8.ofNat n := by
    rintro n low high rfl
    rw [UInt8.toNat_ofNat', Nat.mod_eq_of_lt high] at bound
    omega
  revert mem
  fun_cases String.utf8EncodeChar c with
  | case1 v small =>
      intro mem
      rw [List.mem_singleton.mp mem]
  | case2 v _ small =>
      intro mem
      rcases List.mem_cons.mp mem with h | mem
      · exact absurd h (high _ (by omega) (by omega))
      · exact absurd (List.mem_singleton.mp mem) (high _ (by omega) (by omega))
  | case3 v _ _ small =>
      intro mem
      rcases List.mem_cons.mp mem with h | mem
      · exact absurd h (high _ (by omega) (by omega))
      rcases List.mem_cons.mp mem with h | mem
      · exact absurd h (high _ (by omega) (by omega))
      · exact absurd (List.mem_singleton.mp mem) (high _ (by omega) (by omega))
  | case4 v _ _ large =>
      intro mem
      rcases List.mem_cons.mp mem with h | mem
      · exact absurd h (high _ (by omega) (by omega))
      rcases List.mem_cons.mp mem with h | mem
      · exact absurd h (high _ (by omega) (by omega))
      rcases List.mem_cons.mp mem with h | mem
      · exact absurd h (high _ (by omega) (by omega))
      · exact absurd (List.mem_singleton.mp mem) (high _ (by omega) (by omega))

theorem isUtf8_append {first second : Bytes} (text : isUtf8 first = true)
    (text' : isUtf8 second = true) : isUtf8 (first ++ second) = true := by
  obtain ⟨chars, rfl⟩ := isUtf8_iff.mp text
  obtain ⟨chars', rfl⟩ := isUtf8_iff.mp text'
  exact isUtf8_iff.mpr ⟨chars ++ chars', List.flatMap_append.symm⟩

/-- Text cut at an ASCII byte is text on both sides. -/
theorem isUtf8_of_append_cons {before after : Bytes} {byte : UInt8} (ascii : byte < 128)
    (text : isUtf8 (before ++ byte :: after) = true) :
    isUtf8 before = true ∧ isUtf8 after = true := by
  obtain ⟨chars, same⟩ := isUtf8_iff.mp text
  induction chars generalizing before with
  | nil => simp at same
  | cons c chars ih =>
      have first : isUtf8 (String.utf8EncodeChar c) = true := isUtf8_iff.mpr ⟨[c], by simp⟩
      rw [List.flatMap_cons] at same
      rcases List.append_eq_append_iff.mp same with
        ⟨inner, split, tail⟩ | ⟨inner, split, tail⟩
      · cases inner with
        | nil =>
            -- the byte opens the rest of the text
            rw [List.append_nil] at split
            refine ⟨split ▸ first, (@ih [] ?_ tail).2⟩
            rw [List.nil_append, tail]
            exact isUtf8_iff.mpr ⟨chars, rfl⟩
        | cons first inner =>
            obtain ⟨rfl, rfl⟩ := List.cons.inj tail
            have single := utf8EncodeChar_of_mem_ascii ascii (c := c) (by rw [split]; simp)
            rw [single] at split
            obtain ⟨rfl, rest⟩ : before = [] ∧ [byte] = byte :: inner := by
              cases before with
              | nil => exact ⟨rfl, split⟩
              | cons _ _ => simp at split
            obtain rfl : [] = inner := (List.cons.inj rest).2
            exact ⟨isUtf8_iff.mpr ⟨[], rfl⟩, isUtf8_iff.mpr ⟨chars, rfl⟩⟩
      · have rest : isUtf8 (inner ++ byte :: after) = true := by
          rw [← tail]
          exact isUtf8_iff.mpr ⟨chars, rfl⟩
        obtain ⟨inner_, after_⟩ := ih rest tail.symm
        rw [split]
        exact ⟨isUtf8_append first inner_, after_⟩

/-! ## Components -/

namespace OsPath

/-- `/` -/
def separator : UInt8 := 47

/-- `.` -/
def dot : UInt8 := 46

end OsPath

open OsPath

inductive Component where
  | rootDir
  | curDir
  | parentDir
  | normal (name : Bytes)
  deriving DecidableEq

/-- A path, as the list of its components. -/
abbrev Path := List Component

namespace Path

/-- A piece between separators; empty pieces and `.` are dropped. -/
def componentOf (piece : Bytes) : Path :=
  if piece = [] ∨ piece = [dot] then []
  else if piece = [dot, dot] then [.parentDir]
  else [.normal piece]

/-- `Path::new(bytes).components()`: a `.` counts only at the very beginning. -/
def components (bytes : Bytes) : Path :=
  let pieces := bytes.splitOn separator
  if bytes.head? = some separator then .rootDir :: pieces.flatMap componentOf
  else if pieces.head? = some [dot] then .curDir :: pieces.flatMap componentOf
  else pieces.flatMap componentOf

theorem isUtf8_of_mem_intercalate {pieces : List Bytes} {piece : Bytes} (mem : piece ∈ pieces)
    (text : isUtf8 ([separator].intercalate pieces) = true) : isUtf8 piece = true := by
  induction pieces with
  | nil => cases mem
  | cons first rest ih =>
      cases rest with
      | nil =>
          obtain rfl := List.mem_singleton.mp mem
          simpa [List.intercalate] using text
      | cons second rest =>
          have shape : [separator].intercalate (first :: second :: rest) =
              first ++ separator :: [separator].intercalate (second :: rest) := by
            simp [List.intercalate]
          rw [shape] at text
          obtain ⟨first_, rest_⟩ := isUtf8_of_append_cons (by decide) text
          rcases List.mem_cons.mp mem with rfl | mem
          · exact first_
          · exact ih mem rest_

theorem mem_componentOf {piece name : Bytes} (mem : Component.normal name ∈ componentOf piece) :
    name = piece := by
  unfold componentOf at mem
  split at mem
  next => cases mem
  next =>
    split at mem
    next => cases List.mem_singleton.mp mem
    next => exact Component.normal.inj (List.mem_singleton.mp mem)

/-- The names of a textual path are text. -/
theorem isUtf8_of_mem_components {bytes name : Bytes} (text : isUtf8 bytes = true)
    (mem : .normal name ∈ components bytes) : isUtf8 name = true := by
  have piece : name ∈ bytes.splitOn separator := by
    have body : Component.normal name ∈ (bytes.splitOn separator).flatMap componentOf := by
      unfold components at mem
      dsimp only at mem
      split at mem
      next => exact (List.mem_cons.mp mem).resolve_left nofun
      next =>
        split at mem
        next => exact (List.mem_cons.mp mem).resolve_left nofun
        next => exact mem
    obtain ⟨piece, listed, here⟩ := List.mem_flatMap.mp body
    exact mem_componentOf here ▸ listed
  refine isUtf8_of_mem_intercalate piece ?_
  rw [List.intercalate_splitOn]
  exact text

/-- `Path::join`. -/
def join (base path : Path) : Path :=
  match path with
  | .rootDir :: _ => path
  | .curDir :: rest => if base = [] then path else base ++ rest
  | _ => base ++ path

/-- `Path::file_name`. -/
def fileName (path : Path) : Option Bytes :=
  match path.getLast? with
  | some (.normal name) => some name
  | _ => none

/-- What stands before and after the last dot, if there is a dot. -/
def splitLastDot : Bytes → Option (Bytes × Bytes)
  | [] => none
  | byte :: rest =>
      match splitLastDot rest with
      | some (before, after) => some (byte :: before, after)
      | none => if byte = dot then some ([], rest) else none

/-- `rsplit_file_at_dot`: a dot at the beginning of a name starts no extension. -/
def rsplitFileAtDot (file : Bytes) : Option Bytes × Option Bytes :=
  if file = [dot, dot] then (some file, none)
  else
    match splitLastDot file with
    | none => (none, some file)
    | some ([], _) => (some file, none)
    | some (before, after) => (some before, some after)

/-- `Path::file_stem`: `before.or(after)`. -/
def fileStem (path : Path) : Option Bytes :=
  path.fileName.bind fun file =>
    (rsplitFileAtDot file).1.or (rsplitFileAtDot file).2

/-- `Path::extension`: `before.and(after)`. -/
def extension (path : Path) : Option Bytes :=
  path.fileName.bind fun file =>
    (rsplitFileAtDot file).1.bind fun _ => (rsplitFileAtDot file).2

/-- `PathBuf::set_extension`: the file name becomes its stem and, unless `extension`
is empty, a dot and `extension`; a path without a file name stays. -/
def setExtension (path : Path) (extension : Bytes) : Path :=
  match path.fileStem with
  | none => path
  | some stem =>
      path.dropLast ++
        [.normal (if extension = [] then stem else stem ++ dot :: extension)]

/-- The bytes of a path go on behind its file name: they end with a separator or with a
piece that is no component. -/
def trailing (bytes : Bytes) : Bool :=
  match (bytes.splitOn separator).getLast? with
  | some piece => decide (piece = [] ∨ piece = [dot])
  | none => false

/-- `Path::with_extension`: as many bytes as the extension has are cut off the path, and
what is left is given the new extension.  Where the path is `trailing`, the cut leaves the
file name, or at least its stem. -/
def withExtension (path : Path) (trailing : Bool) (extension : Bytes) : Path :=
  match path.fileName, path.extension with
  | some name, some previous =>
      if trailing then path.setExtension extension
      else
        setExtension
          (path.dropLast ++ componentOf (name.take (name.length - previous.length))) extension
  | _, _ => path.setExtension extension

/-- The file name is two dots and an extension, as in `..a`: its stem is a single dot. -/
def Dotted (path : Path) : Prop :=
  path.fileStem = some [dot] ∧ path.extension.isSome = true

instance (path : Path) : Decidable path.Dotted :=
  inferInstanceAs (Decidable (_ ∧ _))

/-! ## File names -/

theorem fileName_eq_some_iff {path : Path} {name : Bytes} :
    path.fileName = some name ↔ ∃ parent, path = parent ++ [.normal name] := by
  rcases List.eq_nil_or_concat' path with rfl | ⟨parent, last, rfl⟩
  · exact iff_of_false nofun (fun shape => by simp at shape)
  · cases last <;> simp [fileName]

@[simp] theorem fileName_concat (parent : Path) (name : Bytes) :
    fileName (parent ++ [.normal name]) = some name := by
  simp [fileName]

theorem splitLastDot_eq_none {file : Bytes} : splitLastDot file = none ↔ dot ∉ file := by
  induction file with
  | nil => exact iff_of_true rfl List.not_mem_nil
  | cons byte rest ih =>
      rw [splitLastDot]
      cases inner : splitLastDot rest with
      | some pair =>
          have mem : dot ∈ rest := not_not.mp fun absent => by
            cases inner.symm.trans (ih.mpr absent)
          exact iff_of_false nofun fun absent => absent (List.mem_cons_of_mem _ mem)
      | none =>
          rw [List.mem_cons, not_or, and_iff_left (ih.mp inner), eq_comm (a := dot)]
          simp

theorem eq_of_splitLastDot {file before after : Bytes}
    (split : splitLastDot file = some (before, after)) :
    file = before ++ dot :: after ∧ dot ∉ after := by
  induction file generalizing before with
  | nil => cases split
  | cons byte rest ih =>
      unfold splitLastDot at split
      cases inner : splitLastDot rest with
      | some pair =>
          rw [inner] at split
          cases split
          obtain ⟨shape, last⟩ := ih inner
          exact ⟨by rw [shape, List.cons_append], last⟩
      | none =>
          simp only [inner] at split
          split at split
          next isDot =>
            cases split
            exact ⟨by rw [isDot, List.nil_append], splitLastDot_eq_none.mp inner⟩
          next => cases split

theorem splitLastDot_append {before after : Bytes} (last : dot ∉ after) :
    splitLastDot (before ++ dot :: after) = some (before, after) := by
  induction before with
  | nil => rw [List.nil_append, splitLastDot, splitLastDot_eq_none.mpr last, if_pos rfl]
  | cons byte before ih => rw [List.cons_append, splitLastDot, ih]

/-- A file name is its stem, and where there is an extension, a dot and the extension. -/
theorem fileName_cases (parent : Path) (name : Bytes) :
    (extension (parent ++ [.normal name]) = none ∧
        fileStem (parent ++ [.normal name]) = some name) ∨
      ∃ stem ext, extension (parent ++ [.normal name]) = some ext ∧
        fileStem (parent ++ [.normal name]) = some stem ∧
        name = stem ++ dot :: ext ∧ stem ≠ [] ∧ dot ∉ ext := by
  simp only [extension, fileStem, fileName_concat, Option.bind_some, rsplitFileAtDot]
  split
  next => exact .inl ⟨rfl, rfl⟩
  next =>
    split
    next => exact .inl ⟨rfl, rfl⟩
    next => exact .inl ⟨rfl, rfl⟩
    next before after opens split =>
      obtain ⟨shape, last⟩ := eq_of_splitLastDot split
      refine .inr ⟨before, after, rfl, rfl, shape, ?_, last⟩
      rintro rfl
      exact opens rfl

/-- The extension of a textual name is text. -/
theorem isUtf8_extension {parent : Path} {name ext : Bytes} (text : isUtf8 name = true)
    (has : extension (parent ++ [.normal name]) = some ext) : isUtf8 ext = true := by
  rcases fileName_cases parent name with ⟨none_, -⟩ | ⟨stem, ext', some_, -, shape, -⟩
  · cases none_.symm.trans has
  · obtain rfl : ext' = ext := Option.some.inj (some_.symm.trans has)
    exact (isUtf8_of_append_cons (by decide) (shape ▸ text)).2

/-- What comes before a last dot is the stem, unless the dot opens the name. -/
theorem fileStem_append (parent : Path) {stem : Bytes} (nonempty : stem ≠ [])
    (ordinary : stem ≠ [dot]) : fileStem (parent ++ [.normal (stem ++ [dot])]) = some stem := by
  have plain : stem ++ [dot] ≠ [dot, dot] :=
    fun same => ordinary (@List.append_cancel_right _ _ [dot] _ same)
  obtain ⟨byte, rest, rfl⟩ := List.exists_cons_of_ne_nil nonempty
  rw [fileStem, fileName_concat, Option.bind_some, rsplitFileAtDot, if_neg plain,
    splitLastDot_append List.not_mem_nil]
  rfl

theorem take_name (stem ext : Bytes) :
    (stem ++ dot :: ext).take ((stem ++ dot :: ext).length - ext.length) = stem ++ [dot] := by
  have count : (stem ++ dot :: ext).length - ext.length = (stem ++ [dot]).length := by
    simp only [List.length_append, List.length_cons, List.length_nil]
    omega
  have shape : stem ++ dot :: ext = (stem ++ [dot]) ++ ext := by simp
  rw [count, shape, List.take_left]

/-- Keeping the extension and adding `longer` to it, or taking `longer` where there is
none. -/
def longerExtension (path : Path) (longer : Bytes) : Bytes :=
  match path.extension with
  | some ext => ext ++ dot :: longer
  | none => longer

variable {parent : Path} {name stem ext longer : Bytes}

theorem setExtension_concat (stem_ : fileStem (parent ++ [.normal name]) = some stem)
    (nonempty : ext ≠ []) :
    setExtension (parent ++ [.normal name]) ext = parent ++ [.normal (stem ++ dot :: ext)] := by
  rw [setExtension, stem_]
  simp only [if_neg nonempty, List.dropLast_concat]

theorem withExtension_of_none {path : Path} (none_ : path.extension = none) (trails : Bool) :
    path.withExtension trails ext = path.setExtension ext := by
  unfold withExtension
  rw [none_]
  split
  next found => cases found
  next => rfl

theorem withExtension_trailing (path : Path) :
    path.withExtension true ext = path.setExtension ext := by
  unfold withExtension
  split
  next => exact if_pos rfl
  next => rfl

theorem withExtension_of_some
    (some_ : extension (parent ++ [.normal (stem ++ dot :: ext)]) = some ext) (longer : Bytes) :
    withExtension (parent ++ [.normal (stem ++ dot :: ext)]) false longer =
      setExtension (parent ++ componentOf (stem ++ [dot])) longer := by
  unfold withExtension
  rw [some_, fileName_concat, List.dropLast_concat]
  simp only [take_name, Bool.false_eq_true, if_false]

/-- With a longer extension a dot and `longer` are appended to the file name, unless the
path ends with a name whose stem is a single dot. -/
theorem withExtension_longer {trails : Bool} (nonempty : longer ≠ [])
    (ordinary : trails = true ∨ ¬ Dotted (parent ++ [.normal name])) :
    withExtension (parent ++ [.normal name]) trails
        (longerExtension (parent ++ [.normal name]) longer) =
      parent ++ [.normal (name ++ dot :: longer)] := by
  unfold longerExtension
  rcases fileName_cases parent name with
    ⟨none_, stem_⟩ | ⟨stem, ext, some_, stem_, rfl, opens, -⟩
  · rw [none_, withExtension_of_none none_, setExtension_concat stem_ nonempty]
  · have longer_ : ext ++ dot :: longer ≠ [] := by simp
    rw [some_]
    cases trails with
    | true =>
        rw [withExtension_trailing, setExtension_concat stem_ longer_]
        simp
    | false =>
        have plain : stem ≠ [dot] := by
          rintro rfl
          rcases ordinary with trails | other
          · cases trails
          · exact other ⟨stem_, by rw [some_]; rfl⟩
        have normal : componentOf (stem ++ [dot]) = [.normal (stem ++ [dot])] := by
          rw [componentOf, if_neg, if_neg]
          · exact fun same => plain (@List.append_cancel_right _ _ [dot] _ same)
          · rintro (empty | single)
            · exact absurd empty (List.concat_ne_nil _ _)
            · exact opens (@List.append_cancel_right _ _ [dot] _ single)
        rw [withExtension_of_some some_, normal,
          setExtension_concat (fileStem_append parent opens plain) longer_]
        simp

/-- The bytes that are left of such a path end with the parent directory, which has no
file name to be extended. -/
theorem withExtension_dotted (dotted : Dotted (parent ++ [.normal name])) :
    withExtension (parent ++ [.normal name]) false
        (longerExtension (parent ++ [.normal name]) longer) = parent ++ [.parentDir] := by
  rcases fileName_cases parent name with ⟨none_, -⟩ | ⟨_, ext, some_, stem_, rfl, -, -⟩
  · rw [Dotted, none_] at dotted
    cases dotted.2
  · obtain rfl := Option.some.inj (stem_.symm.trans dotted.1)
    have up : componentOf ([dot] ++ [dot]) = [.parentDir] := rfl
    have nameless : fileStem (parent ++ [.parentDir]) = none := by
      simp [fileStem, fileName]
    rw [withExtension_of_some some_, up, setExtension, nameless]

/-- A path without a file name stays. -/
theorem withExtension_of_fileName {path : Path} (nameless : path.fileName = none)
    (trails : Bool) : path.withExtension trails longer = path := by
  have none_ : path.extension = none := by rw [extension, nameless, Option.bind_none]
  rw [withExtension_of_none none_, setExtension, fileStem, nameless]
  rfl

/-- What a longer extension makes of a path. -/
theorem withExtension_cases (nonempty : longer ≠ []) (path : Path) (trails : Bool) :
    path.fileName = none ∧ path.withExtension trails (path.longerExtension longer) = path ∨
      ∃ name, path = path.dropLast ++ [.normal name] ∧
        path.withExtension trails (path.longerExtension longer) = path.dropLast ++
          [if trails = false ∧ path.Dotted then .parentDir else .normal (name ++ dot :: longer)] := by
  cases named : path.fileName with
  | none => exact .inl ⟨rfl, withExtension_of_fileName named trails⟩
  | some name =>
      obtain ⟨parent, rfl⟩ := fileName_eq_some_iff.mp named
      refine .inr ⟨name, by rw [List.dropLast_concat], ?_⟩
      rw [List.dropLast_concat]
      split
      next both =>
        rw [both.1]
        exact withExtension_dotted both.2
      next other =>
        refine withExtension_longer nonempty ?_
        cases trails with
        | true => exact .inl rfl
        | false => exact .inr fun dotted => other ⟨rfl, dotted⟩

end Path

/-! ## Relative paths of ordinary names -/

/-- The bytes can name a directory entry. -/
structure IsName (bytes : Bytes) : Prop where
  nonempty : bytes ≠ []
  plain : separator ∉ bytes
  not_dot : bytes ≠ [dot]
  not_dotdot : bytes ≠ [dot, dot]

namespace Path

theorem componentOf_name {name : Bytes} (is_name : IsName name) :
    componentOf name = [.normal name] := by
  rw [componentOf, if_neg, if_neg is_name.not_dotdot]
  rintro (empty | isDot)
  · exact is_name.nonempty empty
  · exact is_name.not_dot isDot

/-- Names joined by separators have exactly these as their components. -/
theorem components_intercalate {names : List Bytes} (are : ∀ name ∈ names, IsName name)
    (nonempty : names ≠ []) : components ([separator].intercalate names) = names.map .normal := by
  have pieces : ([separator].intercalate names).splitOn separator = names :=
    List.splitOn_intercalate separator (fun name mem => (are name mem).plain) nonempty
  have body : names.flatMap componentOf = names.map .normal := by
    rw [List.map_eq_flatMap]
    exact List.flatMap_congr fun name mem => componentOf_name (are name mem)
  obtain ⟨first, rest, rfl⟩ := List.exists_cons_of_ne_nil nonempty
  have is_name := are first List.mem_cons_self
  have relative : ([separator].intercalate (first :: rest)).head? ≠ some separator := by
    intro rooted
    obtain ⟨byte, tail, shape⟩ := List.exists_cons_of_ne_nil is_name.nonempty
    have head : ([separator].intercalate (first :: rest)).head? = some byte := by
      cases rest <;> simp [shape, List.intercalate]
    obtain rfl : byte = separator := Option.some.inj (head.symm.trans rooted)
    exact is_name.plain (by rw [shape]; exact List.mem_cons_self)
  have ordinary : (first :: rest).head? ≠ some [dot] :=
    fun isDot => is_name.not_dot (Option.some.inj isDot)
  rw [components, pieces, body, if_neg relative, if_neg ordinary]

end Path

/-- What can name a directory entry: nonempty text without a separator, neither `.`
nor `..`. -/
@[ext]
structure FileName where
  bytes : Bytes
  nonempty : bytes ≠ []
  plain : separator ∉ bytes
  not_dot : bytes ≠ [dot]
  not_dotdot : bytes ≠ [dot, dot]
  text : isUtf8 bytes = true

/-- The names of a relative path, joined by separators. -/
def relativePath (names : List FileName) : Bytes :=
  [separator].intercalate (names.map FileName.bytes)

/-- A name with one more extension. -/
def FileName.longer (name ext : FileName) : FileName where
  bytes := name.bytes ++ dot :: ext.bytes
  nonempty := by simp
  plain := by
    simp only [List.mem_append, List.mem_cons, not_or]
    exact ⟨name.plain, by decide, ext.plain⟩
  not_dot := by
    intro same
    have count := congrArg List.length same
    have one := List.length_pos_of_ne_nil name.nonempty
    simp only [List.length_append, List.length_cons, List.length_nil] at count
    omega
  not_dotdot := by
    intro same
    have count := congrArg List.length same
    have one := List.length_pos_of_ne_nil name.nonempty
    have one' := List.length_pos_of_ne_nil ext.nonempty
    simp only [List.length_append, List.length_cons, List.length_nil] at count
    omega
  text := by
    have opening : isUtf8 [dot] = true := isUtf8_iff.mpr ⟨['.'], by decide⟩
    exact isUtf8_append name.text (isUtf8_append opening ext.text)

theorem relativePath_longer (parents : List FileName) (name ext : FileName) :
    relativePath (parents ++ [name.longer ext]) =
      relativePath (parents ++ [name]) ++ dot :: ext.bytes := by
  induction parents with
  | nil => simp [relativePath, FileName.longer]
  | cons parent parents ih =>
      have step : ∀ last, relativePath (parent :: parents ++ [last]) =
          parent.bytes ++ separator :: relativePath (parents ++ [last]) := by
        intro last
        cases parents <;> simp [relativePath, List.intercalate]
      rw [step, step, ih]
      simp

namespace Path

/-- A relative path of ordinary names has exactly these as its components. -/
theorem components_relativePath {names : List FileName} (nonempty : names ≠ []) :
    components (relativePath names) = names.map fun name => .normal name.bytes := by
  have are : ∀ bytes ∈ names.map FileName.bytes, IsName bytes := by
    intro bytes mem
    obtain ⟨name, -, rfl⟩ := List.mem_map.mp mem
    exact ⟨name.nonempty, name.plain, name.not_dot, name.not_dotdot⟩
  rw [relativePath, components_intercalate are (by simpa using nonempty), List.map_map]
  rfl

/-- Nothing follows the last name of such a path. -/
theorem trailing_relativePath {names : List FileName} (nonempty : names ≠ []) :
    trailing (relativePath names) = false := by
  obtain ⟨parents, last, rfl⟩ := (List.eq_nil_or_concat' names).resolve_left nonempty
  have pieces : (relativePath (parents ++ [last])).splitOn separator =
      (parents ++ [last]).map FileName.bytes := by
    refine List.splitOn_intercalate separator ?_ (by simp)
    intro bytes mem
    obtain ⟨name, -, rfl⟩ := List.mem_map.mp mem
    exact name.plain
  rw [trailing, pieces, List.map_append, List.map_singleton, List.getLast?_concat]
  simp [last.nonempty, last.not_dot]

/-- Relative paths of ordinary names with the same components are equal. -/
theorem components_relativePath_inj {names names' : List FileName} (nonempty : names ≠ [])
    (nonempty' : names' ≠ [])
    (same : components (relativePath names) = components (relativePath names')) :
    relativePath names = relativePath names' := by
  rw [components_relativePath nonempty, components_relativePath nonempty'] at same
  have injective : Function.Injective fun name : FileName => Component.normal name.bytes := by
    intro name name' h
    exact FileName.ext (Component.normal.inj h)
  rw [injective.list_map same]

end Path

end Cccp
