import Cccp.Cipher
import Cccp.Lib.Shell
import Cccp.Options.IoSpec

/-!
# The remote command

`Options::format_command` writes the command with which the remote side is started.  The
command, the rate and the two locations stand between double quotes; nothing is escaped.

`formatCommand_eq_render` gives the command as the arguments that are meant.
-/

namespace Cccp

/-! ## Options -/

/-- `log::LevelFilter` -/
inductive LevelFilter where
  | off
  | error
  | warn
  | info
  | debug
  | trace

def LevelFilter.display : LevelFilter → List Char
  | off => "OFF".toList
  | error => "ERROR".toList
  | warn => "WARN".toList
  | info => "INFO".toList
  | debug => "DEBUG".toList
  | trace => "TRACE".toList

inductive SetupMode where
  | listen
  | connect
  deriving DecidableEq

def SetupMode.display : SetupMode → List Char
  | listen => "l".toList
  | connect => "c".toList

def Cipher.display : Cipher → List Char
  | none => "NONE".toList
  | aes128 => "AES128".toList
  | aes192 => "AES192".toList
  | aes256 => "AES256".toList
  | chacha8 => "CHACHA8".toList
  | chacha20 => "CHACHA20".toList

/-- The texts of the crates: `STANDARD_NO_PAD.encode`, and `Display` of a `ByteSize`, which is
a decimal number, a space and a unit. -/
structure Formats where
  base64 : Bytes → List Char
  byteSize : UInt64 → List Char
  base64_alphabet : ∀ bytes, ∀ c ∈ base64 bytes, c.isAlphanum = true ∨ c = '+' ∨ c = '/'
  byteSize_alphabet : ∀ size, ∀ c ∈ byteSize size, c.isAlphanum = true ∨ c = '.' ∨ c = ' '

/-- A `Crypto` that was parsed: its cipher is known. -/
structure ParsedCrypto where
  crypto : Crypto
  known : (Cipher.ofNumber crypto.cipher).isSome = true

def ParsedCrypto.display (formats : Formats) (x : ParsedCrypto) : List Char :=
  ((Cipher.ofNumber x.crypto.cipher).get x.known).display ++ ':' ::
    (formats.base64 x.crypto.key ++ ':' :: formats.base64 x.crypto.iv)

/-- The options that the remote side is told. -/
structure Options where
  startPort : UInt16
  endPort : UInt16
  threads : UInt64
  logLevel : LevelFilter
  rate : UInt64
  max : UInt64
  controlCrypto : ParsedCrypto
  streamCrypto : ParsedCrypto
  receiveTimeout : UInt64
  jobLimit : UInt64
  requeueInterval : UInt64
  maxRetries : UInt64
  command : List Char
  verify : Bool
  overwrite : Bool
  recursive : Bool
  force : Bool
  directory : Bool
  source : IoSpec
  destination : IoSpec

/-- `"{}"` -/
def quoted (text : List Char) : List Char := '"' :: (text ++ ['"'])

/-- A name and its value, with a blank between them. -/
def named (name : String) (value : List Char) : List Char := name.toList ++ ' ' :: value

namespace Options

variable (formats : Formats) (o : Options) (sender : Bool) (mode : SetupMode)

/-- `Options::format_command` -/
def formatCommand : List Char :=
  let arguments := [
    quoted o.command,
    named "--mode" (if sender then "rr".toList else "rs".toList),
    named "--stream-setup-mode" mode.display,
    named "-s" (decimal o.startPort.toNat),
    named "-e" (decimal o.endPort.toNat),
    named "-t" (decimal o.threads.toNat),
    named "-l" o.logLevel.display,
    named "-r" (quoted (formats.byteSize o.rate)),
    named "-m" (decimal o.max.toNat),
    named "-T" (decimal o.receiveTimeout.toNat),
    named "-j" (decimal o.jobLimit.toNat),
    named "-c" (o.controlCrypto.display formats),
    named "-S" (o.streamCrypto.display formats),
    named "-i" (decimal o.requeueInterval.toNat),
    named "-M" (decimal o.maxRetries.toNat),
    quoted o.source.display,
    quoted o.destination.display]
  -- optional arguments are inserted at index 1, so they are always before the IoSpecs
  let arguments := if o.overwrite then arguments.insertIdx 1 "-o".toList else arguments
  let arguments := if o.verify then arguments.insertIdx 1 "-v".toList else arguments
  let arguments := if o.recursive then arguments.insertIdx 1 "-R".toList else arguments
  let arguments := if o.force then arguments.insertIdx 1 "-f".toList else arguments
  let arguments := if o.directory then arguments.insertIdx 1 "-d".toList else arguments
  [' '].intercalate arguments

/-! ## The arguments that are meant -/

open Shell (Argument)

def flag (set : Bool) (name : String) : List Argument := if set then [.plain name.toList] else []

def values : List Argument := [
  .plain "--mode".toList, .plain (if sender then "rr".toList else "rs".toList),
  .plain "--stream-setup-mode".toList, .plain mode.display,
  .plain "-s".toList, .plain (decimal o.startPort.toNat),
  .plain "-e".toList, .plain (decimal o.endPort.toNat),
  .plain "-t".toList, .plain (decimal o.threads.toNat),
  .plain "-l".toList, .plain o.logLevel.display,
  .plain "-r".toList, .quoted (formats.byteSize o.rate),
  .plain "-m".toList, .plain (decimal o.max.toNat),
  .plain "-T".toList, .plain (decimal o.receiveTimeout.toNat),
  .plain "-j".toList, .plain (decimal o.jobLimit.toNat),
  .plain "-c".toList, .plain (o.controlCrypto.display formats),
  .plain "-S".toList, .plain (o.streamCrypto.display formats),
  .plain "-i".toList, .plain (decimal o.requeueInterval.toNat),
  .plain "-M".toList, .plain (decimal o.maxRetries.toNat)]

def flags : List Argument :=
  flag o.directory "-d" ++ (flag o.force "-f" ++ (flag o.recursive "-R" ++
    (flag o.verify "-v" ++ flag o.overwrite "-o")))

/-- The command, the flags that are set, the values, and last the two locations. -/
def arguments : List Argument :=
  .quoted o.command :: (o.flags ++ (o.values formats sender mode ++
    [.quoted o.source.display, .quoted o.destination.display]))

/-- What the remote side is to be started with. -/
def argv : List (List Char) := (o.arguments formats sender mode).map Argument.text

/-! ## The command as arguments -/

/-- Pieces may be cut otherwise behind others. -/
theorem intercalate_append_congr {rest rest' : List (List Char)} (pieces : List (List Char))
    (nonempty : rest ≠ []) (nonempty' : rest' ≠ [])
    (same : [' '].intercalate rest = [' '].intercalate rest') :
    [' '].intercalate (pieces ++ rest) = [' '].intercalate (pieces ++ rest') := by
  induction pieces with
  | nil => exact same
  | cons piece pieces ih =>
      rw [List.cons_append, List.cons_append,
        List.intercalate_cons_of_ne_nil (List.append_ne_nil_of_right_ne_nil _ nonempty),
        List.intercalate_cons_of_ne_nil (List.append_ne_nil_of_right_ne_nil _ nonempty'), ih]

/-- An optional argument is put behind the command. -/
theorem insert_flag (set : Bool) (name : String) (command : List Char) (rest : List (List Char)) :
    (if set = true then (command :: rest).insertIdx 1 name.toList else command :: rest) =
      command :: ((flag set name).map Argument.render ++ rest) := by
  cases set <;> rfl

theorem formatCommand_eq_render : o.formatCommand formats sender mode =
    [' '].intercalate ((o.arguments formats sender mode).map Argument.render) := by
  let required := o.values formats sender mode ++
    [Argument.quoted o.source.display, Argument.quoted o.destination.display]
  have behind : ∀ rest, rest ≠ [] →
      [' '].intercalate rest = [' '].intercalate (required.map Argument.render) →
      [' '].intercalate (quoted o.command :: o.flags.map Argument.render ++ rest) =
        [' '].intercalate ((o.arguments formats sender mode).map Argument.render) := by
    intro rest nonempty same
    rw [arguments, List.map_cons, List.map_append, ← List.cons_append]
    exact intercalate_append_congr _ nonempty (by simp) same
  simp only [formatCommand, insert_flag]
  simp only [flags, List.map_append, List.append_assoc, List.cons_append] at behind
  apply behind _ (List.cons_ne_nil _ _)
  simp [required, values, named, Argument.render, quoted]

/-! ## Which commands are read as they are meant -/

variable {formats o sender mode}

open Shell (ordinary Inert)

theorem ordinary_of_isAlphanum {c : Char} (is : c.isAlphanum = true) : ordinary c = true := by
  refine decide_eq_true fun mem => ?_
  have none_ : ([' ', '\t', '"', '\'', '\\'] ++ Shell.active ++ Shell.leading).all
      (fun c => !c.isAlphanum) = true := by decide
  have isNot := List.all_eq_true.mp none_ c mem
  rw [is] at isNot
  cases isNot

theorem wellFormed_decimal (n : Nat) : (Argument.plain (decimal n)).WellFormed := by
  refine ⟨Nat.toDigits_ne_nil, List.all_eq_true.mpr fun c mem => ordinary_of_isAlphanum ?_⟩
  have digit : c.isDigit = true := Nat.isDigit_of_mem_toDigits (by decide) (by decide) mem
  rw [Char.isAlphanum, digit, Bool.or_true]

theorem wellFormed_logLevel (level : LevelFilter) : (Argument.plain level.display).WellFormed := by
  cases level <;> exact ⟨by decide, by decide⟩

theorem wellFormed_crypto (x : ParsedCrypto) : (Argument.plain (x.display formats)).WellFormed := by
  have cipher : ∀ cipher : Cipher, cipher.display.all ordinary = true := by
    intro cipher
    cases cipher <;> decide
  have base64 : ∀ bytes, ∀ c ∈ formats.base64 bytes, ordinary c = true := by
    intro bytes c mem
    rcases formats.base64_alphabet bytes c mem with alphanum | rfl | rfl
    · exact ordinary_of_isAlphanum alphanum
    · decide
    · decide
  have colon : ordinary ':' = true := by decide
  refine ⟨List.append_ne_nil_of_right_ne_nil _ (List.cons_ne_nil _ _),
    List.all_eq_true.mpr fun c mem => ?_⟩
  rw [ParsedCrypto.display] at mem
  simp only [List.mem_append, List.mem_cons] at mem
  rcases mem with mem | rfl | mem | rfl | mem
  · exact List.all_eq_true.mp (cipher _) c mem
  · exact colon
  · exact base64 _ c mem
  · exact colon
  · exact base64 _ c mem

theorem mem_flag {set : Bool} {name : String} {a : Argument} (mem : a ∈ flag set name) :
    a = .plain name.toList := by
  cases set with
  | false => cases mem
  | true => exact List.mem_singleton.mp mem

theorem wellFormed_flags : ∀ a ∈ o.flags, a.WellFormed := by
  intro a mem
  simp only [flags, List.mem_append] at mem
  rcases mem with mem | mem | mem | mem | mem <;> cases mem_flag mem <;> exact ⟨by decide, by decide⟩

theorem wellFormed_values : ∀ a ∈ o.values formats sender mode, a.WellFormed := by
  have sides : ∀ sender : Bool,
      (Argument.plain (if sender then "rr".toList else "rs".toList)).WellFormed := by
    intro sender
    cases sender <;> exact ⟨by decide, by decide⟩
  have modes : (Argument.plain mode.display).WellFormed := by
    cases mode <;> exact ⟨by decide, by decide⟩
  have numbers := wellFormed_decimal
  have ciphers := @wellFormed_crypto formats
  have levels := wellFormed_logLevel
  have quotes : ∀ text, (Argument.quoted text).WellFormed := fun _ => trivial
  simp only [values, List.forall_mem_cons, List.not_mem_nil, false_imp_iff, implies_true, and_true,
    sides, modes, numbers, ciphers, levels, quotes, true_and]
  decide

theorem wellFormed_arguments : ∀ a ∈ o.arguments formats sender mode, a.WellFormed := by
  intro a mem
  simp only [arguments, List.mem_cons, List.mem_append, List.not_mem_nil, or_false] at mem
  rcases mem with rfl | mem | mem | rfl | rfl
  · trivial
  · exact wellFormed_flags a mem
  · exact wellFormed_values a mem
  · trivial
  · trivial

theorem inert_byteSize (size : UInt64) : Inert (formats.byteSize size) := by
  refine Shell.inert_of_forall fun c mem => ?_
  rcases formats.byteSize_alphabet size c mem with alphanum | rfl | rfl
  · refine ⟨?_, ?_, ?_, ?_⟩
    all_goals
      rintro rfl
      exact absurd alphanum (by decide)
  · decide
  · decide

/-- Of what the code chooses itself, all is inert. -/
theorem kept_arguments : (∀ a ∈ o.arguments formats sender mode, a.Kept) ↔
    Inert o.command ∧ Inert o.source.display ∧ Inert o.destination.display := by
  have flags : ∀ a ∈ o.flags, a.Kept := by
    intro a mem
    simp only [Options.flags, List.mem_append] at mem
    rcases mem with mem | mem | mem | mem | mem <;> cases mem_flag mem <;> trivial
  have values : ∀ a ∈ o.values formats sender mode, a.Kept := by
    have plain : ∀ text, (Argument.plain text).Kept := fun _ => trivial
    have rate : (Argument.quoted (formats.byteSize o.rate)).Kept := inert_byteSize o.rate
    simp only [Options.values, List.forall_mem_cons, List.not_mem_nil, false_imp_iff, implies_true,
      plain, rate, and_true]
  constructor
  · intro kept
    refine ⟨kept _ List.mem_cons_self, kept (.quoted o.source.display) ?_,
      kept (.quoted o.destination.display) ?_⟩ <;> simp [arguments]
  · rintro ⟨command, source, destination⟩ a mem
    simp only [arguments, List.mem_cons, List.mem_append, List.not_mem_nil, or_false] at mem
    rcases mem with rfl | mem | mem | rfl | rfl
    · exact command
    · exact flags a mem
    · exact values a mem
    · exact source
    · exact destination

/-- **What the remote shell is told.**  The command is read as the arguments that are meant
exactly if the command and the two locations are inert between double quotes. -/
theorem split_formatCommand_iff : Shell.split (o.formatCommand formats sender mode) =
    some (o.argv formats sender mode) ↔
      Inert o.command ∧ Inert o.source.display ∧ Inert o.destination.display := by
  have nonempty : o.arguments formats sender mode ≠ [] := List.cons_ne_nil _ _
  rw [formatCommand_eq_render, argv, Shell.split_render_iff nonempty wellFormed_arguments,
    kept_arguments]

end Options

/-- Texts like those of the crates. -/
def plainFormats : Formats where
  base64 := fun bytes => bytes.map fun _ => 'A'
  byteSize := fun _ => "20.0 MB".toList
  base64_alphabet := by
    intro bytes c mem
    obtain ⟨_, -, rfl⟩ := List.mem_map.mp mem
    exact .inl (by decide)
  byteSize_alphabet := by
    intro size c mem
    have all : "20.0 MB".toList.all (fun c => c.isAlphanum || c = '.' || c = ' ') = true := by
      decide
    have is := List.all_eq_true.mp all c mem
    simpa only [Bool.or_eq_true, decide_eq_true_eq, or_assoc] using is

/-- The default options, without encryption, for a file whose name is a substitution. -/
def substitution : Options where
  startPort := 50000
  endPort := 50009
  threads := 8
  logLevel := .warn
  rate := 20000000
  max := 100
  controlCrypto := ⟨⟨0, [], []⟩, rfl⟩
  streamCrypto := ⟨⟨0, [], []⟩, rfl⟩
  receiveTimeout := 5000
  jobLimit := 1000
  requeueInterval := 1000
  maxRetries := 10
  command := "cccp".toList
  verify := false
  overwrite := false
  recursive := false
  force := false
  directory := false
  source := ⟨"$(x)".toList, none, "u".toList⟩
  destination := ⟨"a".toList, none, "u".toList⟩

/-- The shell runs what the name of the file says. -/
theorem substitution_runs :
    Shell.split (substitution.formatCommand plainFormats true .listen) = none ∧
      Shell.split (substitution.formatCommand plainFormats true .listen) ≠
        some (substitution.argv plainFormats true .listen) := by
  have none_ : Shell.split (substitution.formatCommand plainFormats true .listen) = none := by
    decide +kernel
  rw [none_]
  exact ⟨rfl, by rintro ⟨⟩⟩

end Cccp
