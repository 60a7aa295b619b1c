import Mathlib.Data.List.Chain
import Mathlib.Data.List.Flatten

/-!
# Words of a shell command

How a POSIX shell splits a command into words: blanks separate, and quotes and backslashes
keep characters from separating and vanish themselves.  What a shell would expand, and what
ends the command or is left open, has no words here.

A backslash or an apostrophe that the shell acts on is gone from the words, so that a run
that keeps them all acted on none (`Lossless`).  `split_render_iff` follows: arguments
between double quotes are read as they were written exactly if they are inert.
-/

namespace Cccp

namespace Shell

inductive Mode where
  | unquoted
  | escape
  | single
  | double
  | doubleEscape
  deriving DecidableEq

/-- The complete words, and what has been read of the next one. -/
structure State where
  mode : Mode
  words : List (List Char)
  word : Option (List Char)

namespace State

def start : State := ⟨.unquoted, [], none⟩

def put (s : State) (c : Char) (mode : Mode) : State :=
  ⟨mode, s.words, some (s.word.getD [] ++ [c])⟩

/-- A quote begins a word, even an empty one. -/
def quote (s : State) (mode : Mode) : State := ⟨mode, s.words, some (s.word.getD [])⟩

end State

/-- Characters that are not parts of a word: they end the command or connect it to others, or
are expanded. -/
def active : List Char :=
  ['\n', '|', '&', ';', '<', '>', '(', ')', '$', '`', '*', '?', '[']

/-- Characters before which a backslash between double quotes vanishes; before a line break
both do. -/
def escapable : List Char := ['$', '`', '"', '\\']

/-- A comment and a home directory begin a word. -/
def leading : List Char := ['#', '~']

/-- The shell reads a character; `none` is an expansion or the end of the command.  What a
dollar sign means before other characters than a name is unspecified. -/
def step (s : State) (c : Char) : Option State :=
  match s.mode with
  | .unquoted =>
      if c = ' ' ∨ c = '\t' then some ⟨.unquoted, s.words ++ s.word.toList, none⟩
      else if c = '"' then some (s.quote .double)
      else if c = '\'' then some (s.quote .single)
      else if c = '\\' then some { s with mode := .escape }
      else if c ∈ active ∨ s.word = none ∧ c ∈ leading then none
      else some (s.put c .unquoted)
  | .escape =>
      if c = '\n' then some { s with mode := .unquoted } else some (s.put c .unquoted)
  | .single => if c = '\'' then some { s with mode := .unquoted } else some (s.put c .single)
  | .double =>
      if c = '"' then some { s with mode := .unquoted }
      else if c = '$' ∨ c = '`' then none
      else if c = '\\' then some { s with mode := .doubleEscape }
      else some (s.put c .double)
  | .doubleEscape =>
      if c = '\n' then some { s with mode := .double }
      else if c ∈ escapable then some (s.put c .double)
      else some ((s.put '\\' .double).put c .double)

def run (s : State) (text : List Char) : Option State := text.foldlM step s

/-- The words of a text, which is left neither within quotes nor after a backslash. -/
def split (text : List Char) : Option (List (List Char)) :=
  (run .start text).bind fun s =>
    if s.mode = .unquoted then some (s.words ++ s.word.toList) else none

/-! ## What is kept -/

/-- Backslashes and apostrophes. -/
def marks (text : List Char) : Nat := text.countP fun c => decide (c = '\\' ∨ c = '\'')

/-- The characters in words. -/
def State.read (s : State) : List Char := s.words.flatten ++ s.word.getD []

/-- The marks that are in words, or will be unless the next character is escaped. -/
def State.kept (s : State) : Nat := marks s.read + if s.mode = .doubleEscape then 1 else 0

/-- A run in which no mark vanishes. -/
def Lossless (s : State) (text : List Char) (s' : State) : Prop :=
  run s text = some s' ∧ s'.kept = s.kept + marks text

theorem marks_append (before after : List Char) :
    marks (before ++ after) = marks before + marks after :=
  List.countP_append

theorem marks_singleton (c : Char) : marks [c] = if c = '\\' ∨ c = '\'' then 1 else 0 := by
  rw [marks, List.countP_singleton]
  simp only [decide_eq_true_eq]

@[simp] theorem run_nil (s : State) : run s [] = some s := rfl

theorem run_cons (s : State) (c : Char) (rest : List Char) :
    run s (c :: rest) = (step s c).bind fun s' => run s' rest := rfl

theorem run_append (s : State) (before after : List Char) :
    run s (before ++ after) = (run s before).bind fun s' => run s' after :=
  List.foldlM_append

@[simp] theorem read_put (s : State) (c : Char) (mode : Mode) :
    (s.put c mode).read = s.read ++ [c] := by
  simp [State.read, State.put]

@[simp] theorem read_quote (s : State) (mode : Mode) : (s.quote mode).read = s.read := by
  simp [State.read, State.quote]

@[simp] theorem mode_put (s : State) (c : Char) (mode : Mode) : (s.put c mode).mode = mode := rfl

@[simp] theorem mode_quote (s : State) (mode : Mode) : (s.quote mode).mode = mode := rfl

@[simp] theorem read_separate (s : State) :
    State.read ⟨.unquoted, s.words ++ s.word.toList, none⟩ = s.read := by
  cases here : s.word <;> simp [State.read, here]

@[simp] theorem read_mode (s : State) (mode : Mode) :
    State.read ⟨mode, s.words, s.word⟩ = s.read := rfl

/-- What reading a character can do. -/
inductive Reads (s : State) : Char → State → Prop
  | blank {c : Char} : s.mode = .unquoted → c = ' ' ∨ c = '\t' →
    Reads s c ⟨.unquoted, s.words ++ s.word.toList, none⟩
  | open_ : s.mode = .unquoted → Reads s '"' (s.quote .double)
  | openSingle : s.mode = .unquoted → Reads s '\'' (s.quote .single)
  | backslash : s.mode = .unquoted → Reads s '\\' ⟨.escape, s.words, s.word⟩
  | plain {c : Char} : s.mode = .unquoted → c ≠ '"' → c ≠ '\'' → c ≠ '\\' →
    Reads s c (s.put c .unquoted)
  | continued : s.mode = .escape → Reads s '\n' ⟨.unquoted, s.words, s.word⟩
  | escaped {c : Char} : s.mode = .escape → Reads s c (s.put c .unquoted)
  | closeSingle : s.mode = .single → Reads s '\'' ⟨.unquoted, s.words, s.word⟩
  | single {c : Char} : s.mode = .single → Reads s c (s.put c .single)
  | close : s.mode = .double → Reads s '"' ⟨.unquoted, s.words, s.word⟩
  | quotedBackslash : s.mode = .double → Reads s '\\' ⟨.doubleEscape, s.words, s.word⟩
  | quoted {c : Char} : s.mode = .double → c ≠ '"' → c ≠ '\\' → Reads s c (s.put c .double)
  | quotedContinued : s.mode = .doubleEscape → Reads s '\n' ⟨.double, s.words, s.word⟩
  | quotedEscaped {c : Char} : s.mode = .doubleEscape → c ∈ escapable →
    Reads s c (s.put c .double)
  | backslashKept {c : Char} : s.mode = .doubleEscape → c ∉ escapable →
    Reads s c ((s.put '\\' .double).put c .double)

theorem reads_of_step {s s' : State} {c : Char} (stepped : step s c = some s') : Reads s c s' := by
  unfold step at stepped
  cases mode : s.mode with
  | unquoted =>
      simp only [mode] at stepped
      split at stepped
      next is => exact Option.some.inj stepped ▸ .blank mode is
      split at stepped
      next is => exact is ▸ Option.some.inj stepped ▸ .open_ mode
      next noQuote =>
        split at stepped
        next is => exact is ▸ Option.some.inj stepped ▸ .openSingle mode
        next noSingle =>
          split at stepped
          next is => exact is ▸ Option.some.inj stepped ▸ .backslash mode
          next noBackslash =>
            split at stepped
            next => cases stepped
            next => exact Option.some.inj stepped ▸ .plain mode noQuote noSingle noBackslash
  | escape =>
      simp only [mode] at stepped
      split at stepped
      next is => exact is ▸ Option.some.inj stepped ▸ .continued mode
      next => exact Option.some.inj stepped ▸ .escaped mode
  | single =>
      simp only [mode] at stepped
      split at stepped
      next is => exact is ▸ Option.some.inj stepped ▸ .closeSingle mode
      next => exact Option.some.inj stepped ▸ .single mode
  | double =>
      simp only [mode] at stepped
      split at stepped
      next is => exact is ▸ Option.some.inj stepped ▸ .close mode
      next noQuote =>
        split at stepped
        next => cases stepped
        split at stepped
        next is => exact is ▸ Option.some.inj stepped ▸ .quotedBackslash mode
        next noBackslash => exact Option.some.inj stepped ▸ .quoted mode noQuote noBackslash
  | doubleEscape =>
      simp only [mode] at stepped
      split at stepped
      next is => exact is ▸ Option.some.inj stepped ▸ .quotedContinued mode
      split at stepped
      next is => exact Option.some.inj stepped ▸ .quotedEscaped mode is
      next no => exact Option.some.inj stepped ▸ .backslashKept mode no

/-- No mark appears from nowhere. -/
theorem Reads.kept_le {s s' : State} {c : Char} (reads : Reads s c s') :
    s'.kept ≤ s.kept + marks [c] := by
  cases reads
  all_goals
    simp only [State.kept, read_put, read_quote, read_separate, read_mode, mode_put, mode_quote,
      marks_append, marks_singleton, *]
    simp only [reduceCtorEq, if_true, if_false]
    grind

theorem run_kept_le {text : List Char} {s s' : State} (ran : run s text = some s') :
    s'.kept ≤ s.kept + marks text := by
  induction text generalizing s with
  | nil =>
      cases ran
      exact Nat.le_add_right _ _
  | cons c rest ih =>
      obtain ⟨middle, stepped, ran⟩ := Option.bind_eq_some_iff.mp (run_cons s c rest ▸ ran)
      have first := (reads_of_step stepped).kept_le
      have later := ih ran
      have both : marks (c :: rest) = marks [c] + marks rest := marks_append [c] rest
      omega

/-- What is lossless as a whole is so in each part. -/
theorem lossless_append {before after : List Char} {s s' : State} :
    Lossless s (before ++ after) s' ↔
      ∃ middle, Lossless s before middle ∧ Lossless middle after s' := by
  constructor
  · rintro ⟨ran, kept⟩
    obtain ⟨middle, first, later⟩ := Option.bind_eq_some_iff.mp (run_append s before after ▸ ran)
    have firstLe := run_kept_le first
    have laterLe := run_kept_le later
    rw [marks_append] at kept
    exact ⟨middle, ⟨first, by omega⟩, later, by omega⟩
  · rintro ⟨middle, ⟨first, firstKept⟩, later, laterKept⟩
    refine ⟨by rw [run_append, first, Option.bind_some, later], ?_⟩
    rw [laterKept, firstKept, marks_append, Nat.add_assoc]

theorem lossless_cons {c : Char} {rest : List Char} {s s' : State} :
    Lossless s (c :: rest) s' ↔ ∃ middle, Lossless s [c] middle ∧ Lossless middle rest s' :=
  @lossless_append [c] rest s s'

theorem lossless_nil {s s' : State} : Lossless s [] s' ↔ s' = s := by
  constructor
  · rintro ⟨ran, -⟩
    exact (Option.some.inj ran).symm
  · rintro rfl
    exact ⟨rfl, rfl⟩

theorem lossless_singleton {c : Char} {s s' : State} :
    Lossless s [c] s' ↔ step s c = some s' ∧ s'.kept = s.kept + marks [c] := by
  rw [Lossless, run_cons]
  simp only [run_nil, Option.bind_fun_some]

/-- Nothing was escaped or put between apostrophes, so that no quote is in a word. -/
structure State.Calm (s : State) : Prop where
  not_escape : s.mode ≠ .escape
  not_single : s.mode ≠ .single
  no_quote : '"' ∉ s.read

theorem Reads.calm {s s' : State} {c : Char} (reads : Reads s c s')
    (kept : s'.kept = s.kept + marks [c]) (calm : s.Calm) : s'.Calm := by
  obtain ⟨noEscape, noSingle, noQuote⟩ := calm
  cases reads with
  | continued mode | escaped mode => exact absurd mode noEscape
  | closeSingle mode | single mode => exact absurd mode noSingle
  | blank mode is =>
      refine ⟨by rintro ⟨⟩, by rintro ⟨⟩, ?_⟩
      rw [read_separate]
      exact noQuote
  | open_ mode =>
      refine ⟨by rintro ⟨⟩, by rintro ⟨⟩, ?_⟩
      rw [read_quote]
      exact noQuote
  | close mode | quotedBackslash mode => exact ⟨by rintro ⟨⟩, by rintro ⟨⟩, noQuote⟩
  | plain mode isNot | quoted mode isNot =>
      refine ⟨by rintro ⟨⟩, by rintro ⟨⟩, ?_⟩
      rw [read_put, List.mem_append, List.mem_singleton]
      exact not_or.mpr ⟨noQuote, Ne.symm isNot⟩
  | backslashKept mode isNot =>
      refine ⟨by rintro ⟨⟩, by rintro ⟨⟩, ?_⟩
      simp only [read_put, List.mem_append, List.mem_singleton, not_or]
      refine ⟨⟨noQuote, by decide⟩, ?_⟩
      rintro rfl
      exact isNot (by decide)
  -- a mark is gone
  | openSingle mode | backslash mode | quotedContinued mode | quotedEscaped mode =>
      simp only [State.kept, read_quote, read_mode, read_put, mode_quote, mode_put, marks_append,
        mode] at kept
      simp only [reduceCtorEq, if_true, if_false, marks_singleton] at kept
      grind

theorem Lossless.calm {text : List Char} {s s' : State} (lossless : Lossless s text s')
    (calm : s.Calm) : s'.Calm := by
  induction text generalizing s with
  | nil => exact lossless_nil.mp lossless ▸ calm
  | cons c rest ih =>
      obtain ⟨middle, first, later⟩ := lossless_cons.mp lossless
      obtain ⟨stepped, kept⟩ := lossless_singleton.mp first
      exact ih later ((reads_of_step stepped).calm kept calm)

/-! ## Arguments -/

theorem lossless_step {c : Char} {rest : List Char} {s middle s' : State}
    (stepped : step s c = some middle) (kept : middle.kept = s.kept + marks [c]) :
    Lossless s (c :: rest) s' ↔ Lossless middle rest s' := by
  rw [lossless_cons]
  constructor
  · rintro ⟨other, first, later⟩
    cases stepped.symm.trans (lossless_singleton.mp first).1
    exact later
  · exact fun later => ⟨middle, lossless_singleton.mpr ⟨stepped, kept⟩, later⟩

/-- Characters that a word is made of without quotes. -/
def ordinary (c : Char) : Bool :=
  decide (c ∉ [' ', '\t', '"', '\'', '\\'] ++ active ++ leading)

theorem step_ordinary {c : Char} {words : List (List Char)} {word : Option (List Char)}
    (is : ordinary c = true) :
    step ⟨.unquoted, words, word⟩ c = some ⟨.unquoted, words, some (word.getD [] ++ [c])⟩ ∧
      marks [c] = 0 := by
  have isNot := of_decide_eq_true is
  simp only [List.mem_append, List.mem_cons, List.not_mem_nil, or_false, not_or] at isNot
  obtain ⟨⟨⟨noBlank, noTab, noQuote, noSingle, noBackslash⟩, noActive⟩, noLeading⟩ := isNot
  constructor
  · simp only [step, noBlank, noTab, or_self, if_false, noQuote, noSingle, noBackslash, noActive,
      noLeading, and_false]
    rfl
  · rw [marks_singleton, if_neg (not_or.mpr ⟨noBackslash, noSingle⟩)]

theorem kept_put {words : List (List Char)} {word : List Char} {mode : Mode} (text : List Char)
    (open_ : mode ≠ .doubleEscape) : State.kept ⟨mode, words, some (word ++ text)⟩ =
      State.kept ⟨mode, words, some word⟩ + marks text := by
  simp only [State.kept, State.read, Option.getD_some, if_neg open_, ← List.append_assoc,
    marks_append]
  omega

theorem lossless_ordinary {text : List Char} {words : List (List Char)} {s' : State} :
    ∀ {word : List Char}, (∀ c ∈ text, ordinary c = true) →
      (Lossless ⟨.unquoted, words, some word⟩ text s' ↔
        s' = ⟨.unquoted, words, some (word ++ text)⟩) := by
  induction text with
  | nil =>
      intro word _
      rw [lossless_nil, List.append_nil]
  | cons c rest ih =>
      intro word all
      obtain ⟨stepped, unmarked⟩ := step_ordinary (all c List.mem_cons_self)
      rw [lossless_step stepped (kept_put [c] (by decide)),
        ih fun c mem => all c (List.mem_cons_of_mem _ mem)]
      rw [Option.getD_some, List.append_assoc, List.singleton_append]

/-- Between double quotes the text is read as it is. -/
structure Inert (text : List Char) : Prop where
  unspecial : '"' ∉ text ∧ '$' ∉ text ∧ '`' ∉ text
  unescaping : text.IsChain fun a b => a = '\\' → b ≠ '\\' ∧ b ≠ '\n'
  unclosing : text.getLast? ≠ some '\\'

theorem inert_nil : Inert [] :=
  ⟨by decide, .nil, by decide⟩

theorem inert_cons {c : Char} {rest : List Char} (isNot : c ≠ '\\') :
    Inert (c :: rest) ↔ (c ≠ '"' ∧ c ≠ '$' ∧ c ≠ '`') ∧ Inert rest := by
  have last : (c :: rest).getLast? ≠ some '\\' ↔ rest.getLast? ≠ some '\\' := by
    cases rest with
    | nil => simp [isNot]
    | cons d rest => rw [List.getLast?_cons_cons]
  constructor
  · rintro ⟨unspecial, unescaping, unclosing⟩
    simp only [List.mem_cons, not_or] at unspecial
    exact ⟨⟨Ne.symm unspecial.1.1, Ne.symm unspecial.2.1.1, Ne.symm unspecial.2.2.1⟩,
      ⟨unspecial.1.2, unspecial.2.1.2, unspecial.2.2.2⟩, (List.isChain_cons.mp unescaping).2,
      last.mp unclosing⟩
  · rintro ⟨⟨noQuote, noDollar, noBackquote⟩, unspecial, unescaping, unclosing⟩
    refine ⟨?_, List.isChain_cons.mpr ⟨fun d _ is => absurd is isNot, unescaping⟩,
      last.mpr unclosing⟩
    simp only [List.mem_cons, not_or]
    exact ⟨⟨Ne.symm noQuote, unspecial.1⟩, ⟨Ne.symm noDollar, unspecial.2.1⟩,
      Ne.symm noBackquote, unspecial.2.2⟩

theorem inert_of_forall {text : List Char}
    (all : ∀ c ∈ text, c ≠ '"' ∧ c ≠ '$' ∧ c ≠ '`' ∧ c ≠ '\\') : Inert text := by
  induction text with
  | nil => exact inert_nil
  | cons c rest ih =>
      obtain ⟨⟨noQuote, noDollar, noBackquote, noBackslash⟩, later⟩ := List.forall_mem_cons.mp all
      exact (inert_cons noBackslash).mpr ⟨⟨noQuote, noDollar, noBackquote⟩, ih later⟩

/-- The same, of a text that passes the test. -/
theorem inert_of_all {text : List Char}
    (all : text.all (fun c => decide (c ≠ '"' ∧ c ≠ '$' ∧ c ≠ '`' ∧ c ≠ '\\')) = true) :
    Inert text :=
  inert_of_forall fun c mem => of_decide_eq_true (List.all_eq_true.mp all c mem)

theorem inert_backslash {d : Char} {rest : List Char} :
    Inert ('\\' :: d :: rest) ↔ (d ≠ '\n' ∧ d ∉ escapable) ∧ Inert rest := by
  have drop : Inert ('\\' :: d :: rest) ↔ (d ≠ '\\' ∧ d ≠ '\n') ∧ Inert (d :: rest) := by
    constructor
    · rintro ⟨unspecial, unescaping, unclosing⟩
      simp only [List.mem_cons, not_or] at unspecial
      rw [List.isChain_cons_cons] at unescaping
      rw [List.getLast?_cons_cons] at unclosing
      refine ⟨unescaping.1 rfl, ?_, unescaping.2, unclosing⟩
      simp only [List.mem_cons, not_or]
      exact ⟨unspecial.1.2, unspecial.2.1.2, unspecial.2.2.2⟩
    · rintro ⟨after, unspecial, unescaping, unclosing⟩
      refine ⟨?_, List.isChain_cons_cons.mpr ⟨fun _ => after, unescaping⟩, ?_⟩
      · simp only [List.mem_cons, not_or] at unspecial ⊢
        exact ⟨⟨by decide, unspecial.1⟩, ⟨by decide, unspecial.2.1⟩, by decide, unspecial.2.2⟩
      · rw [List.getLast?_cons_cons]
        exact unclosing
  simp only [escapable, List.mem_cons, List.not_mem_nil, or_false, not_or]
  constructor
  · intro inert
    obtain ⟨⟨noBackslash, noLine⟩, inert⟩ := drop.mp inert
    obtain ⟨⟨noQuote, noDollar, noBackquote⟩, inert⟩ := (inert_cons noBackslash).mp inert
    exact ⟨⟨noLine, noDollar, noBackquote, noQuote, noBackslash⟩, inert⟩
  · rintro ⟨⟨noLine, noDollar, noBackquote, noQuote, noBackslash⟩, inert⟩
    exact drop.mpr ⟨⟨noBackslash, noLine⟩,
      (inert_cons noBackslash).mpr ⟨⟨noQuote, noDollar, noBackquote⟩, inert⟩⟩

variable {words : List (List Char)} {word : List Char} {s' : State}

theorem lossless_quoted_cons {c : Char} {rest : List Char} (noQuote : c ≠ '"') (isNot : c ≠ '\\') :
    Lossless ⟨.double, words, some word⟩ (c :: rest) s' ↔
      (c ≠ '$' ∧ c ≠ '`') ∧ Lossless ⟨.double, words, some (word ++ [c])⟩ rest s' := by
  by_cases special : c = '$' ∨ c = '`'
  · have stuck : step ⟨.double, words, some word⟩ c = none := by
      simp only [step, noQuote, special, if_true, if_false]
    rw [lossless_cons]
    constructor
    · rintro ⟨middle, first, -⟩
      cases stuck.symm.trans (lossless_singleton.mp first).1
    · rintro ⟨⟨noDollar, noBackquote⟩, -⟩
      exact absurd special (not_or.mpr ⟨noDollar, noBackquote⟩)
  · have stepped : step ⟨.double, words, some word⟩ c =
        some ⟨.double, words, some (word ++ [c])⟩ := by
      simp only [step, noQuote, special, isNot, if_false]
      rfl
    rw [lossless_step stepped (kept_put [c] (by decide)), ← not_or]
    exact (and_iff_right special).symm

/-- A backslash between quotes is lost or is kept with the character behind it. -/
theorem lossless_quoted_backslash {d : Char} {rest : List Char} :
    Lossless ⟨.double, words, some word⟩ ('\\' :: d :: rest) s' ↔
      (d ≠ '\n' ∧ d ∉ escapable) ∧
        Lossless ⟨.double, words, some (word ++ ['\\', d])⟩ rest s' := by
  have pending : Lossless ⟨.double, words, some word⟩ ('\\' :: d :: rest) s' ↔
      Lossless ⟨.doubleEscape, words, some word⟩ (d :: rest) s' := lossless_step rfl rfl
  rw [pending]
  by_cases gone : d = '\n' ∨ d ∈ escapable
  · constructor
    · intro lossless
      obtain ⟨middle, first, -⟩ := lossless_cons.mp lossless
      obtain ⟨stepped, kept⟩ := lossless_singleton.mp first
      -- the backslash is not in the word
      have vanished : middle.kept ≤ marks (State.read ⟨.double, words, some word⟩) + marks [d] := by
        rcases gone with rfl | escaped
        · cases stepped
          exact Nat.le_add_right _ _
        · have noLine : d ≠ '\n' := by
            rintro rfl
            exact absurd escaped (by decide)
          simp only [step, noLine, if_false, escaped, if_true] at stepped
          cases stepped
          rw [State.kept, read_put, marks_append]
          exact Nat.le_refl _
      have before : State.kept ⟨.doubleEscape, words, some word⟩ =
          marks (State.read ⟨.double, words, some word⟩) + 1 := rfl
      omega
    · rintro ⟨⟨noLine, noEscape⟩, -⟩
      exact absurd gone (not_or.mpr ⟨noLine, noEscape⟩)
  · have stepped : step ⟨.doubleEscape, words, some word⟩ d =
        some ⟨.double, words, some (word ++ ['\\', d])⟩ := by
      obtain ⟨noLine, noEscape⟩ := not_or.mp gone
      simp only [step, noLine, noEscape, if_false, State.put, Option.getD_some, List.append_assoc,
        List.singleton_append]
    have kept : State.kept ⟨.double, words, some (word ++ ['\\', d])⟩ =
        State.kept ⟨.doubleEscape, words, some word⟩ + marks [d] := by
      have both := @kept_put words word .double ['\\', d] (by decide)
      have two : marks ['\\', d] = 1 + marks [d] := marks_append ['\\'] [d]
      have before : State.kept ⟨.doubleEscape, words, some word⟩ =
        State.kept ⟨.double, words, some word⟩ + 1 := rfl
      omega
    rw [lossless_step stepped kept, ← not_or]
    exact (and_iff_right gone).symm

/-- The text up to the closing quote is in the word exactly if it is inert. -/
theorem lossless_quoted : ∀ (text : List Char) {word : List Char}, '"' ∉ text →
    (Lossless ⟨.double, words, some word⟩ (text ++ ['"']) s' ↔
      Inert text ∧ s' = ⟨.unquoted, words, some (word ++ text)⟩)
  | [], word, _ => by
      have closed : Lossless ⟨.double, words, some word⟩ ['"'] s' ↔
          s' = ⟨.unquoted, words, some word⟩ := by
        rw [lossless_step rfl rfl, lossless_nil]
      rw [List.nil_append, closed, List.append_nil]
      exact (and_iff_right inert_nil).symm
  | [c], word, noQuote => by
      by_cases is : c = '\\'
      · -- the closing quote is escaped
        rw [is, List.cons_append, List.nil_append, lossless_quoted_backslash]
        constructor
        · exact fun escaped => absurd (by decide) escaped.1.2
        · exact fun inert => absurd rfl inert.1.unclosing
      · have differs : c ≠ '"' := fun same => noQuote (List.mem_singleton.mpr same.symm)
        rw [List.cons_append, lossless_quoted_cons differs is,
          lossless_quoted [] (by rintro ⟨⟩), inert_cons is, List.append_assoc]
        simp only [differs, ne_eq, not_false_eq_true, true_and, and_assoc, List.singleton_append]
  | c :: d :: rest, word, noQuote => by
      have rest_ : '"' ∉ d :: rest := fun mem => noQuote (List.mem_cons_of_mem _ mem)
      by_cases is : c = '\\'
      · rw [is, List.cons_append, List.cons_append, lossless_quoted_backslash,
          lossless_quoted rest fun mem => rest_ (List.mem_cons_of_mem _ mem), inert_backslash,
          List.append_assoc]
        exact and_assoc.symm
      · have differs : c ≠ '"' := fun same => noQuote (same ▸ List.mem_cons_self)
        rw [List.cons_append, lossless_quoted_cons differs is, lossless_quoted (d :: rest) rest_,
          inert_cons is, List.append_assoc]
        simp only [differs, ne_eq, not_false_eq_true, true_and, and_assoc, List.singleton_append]

/-- An argument as it is written: as it is, or between double quotes. -/
inductive Argument where
  | plain (text : List Char)
  | quoted (text : List Char)

namespace Argument

def text : Argument → List Char
  | plain text => text
  | quoted text => text

def render : Argument → List Char
  | plain text => text
  | quoted text => '"' :: (text ++ ['"'])

/-- What need not be quoted is not. -/
def WellFormed : Argument → Prop
  | plain text => text ≠ [] ∧ text.all ordinary = true
  | quoted _ => True

instance : DecidablePred WellFormed
  | plain text => inferInstanceAs (Decidable (text ≠ [] ∧ text.all ordinary = true))
  | quoted _ => .isTrue trivial

/-- What is quoted is inert. -/
def Kept : Argument → Prop
  | plain _ => True
  | quoted text => Inert text

theorem Kept.no_quote {a : Argument} (wellFormed : a.WellFormed) (kept : a.Kept) :
    '"' ∉ a.text := by
  cases a with
  | plain text => exact fun mem => absurd (List.all_eq_true.mp wellFormed.2 _ mem) (by decide)
  | quoted text => exact kept.unspecial.1

theorem marks_render (a : Argument) : marks a.render = marks a.text := by
  cases a with
  | plain text => rfl
  | quoted text =>
      have parts : render (quoted text) = ['"'] ++ (text ++ ['"']) := rfl
      rw [parts, marks_append, marks_append]
      exact Nat.zero_add _

end Argument

theorem lossless_render {a : Argument} (wellFormed : a.WellFormed) (noQuote : '"' ∉ a.text) :
    Lossless ⟨.unquoted, words, none⟩ a.render s' ↔
      a.Kept ∧ s' = ⟨.unquoted, words, some a.text⟩ := by
  cases a with
  | plain text =>
      obtain ⟨nonempty, all⟩ := wellFormed
      have all := List.all_eq_true.mp all
      cases text with
      | nil => exact absurd rfl nonempty
      | cons c rest =>
          obtain ⟨stepped, unmarked⟩ := @step_ordinary c words none (all c List.mem_cons_self)
          have kept : State.kept ⟨.unquoted, words, some [c]⟩ =
              State.kept ⟨.unquoted, words, none⟩ + marks [c] := by
            simp [State.kept, State.read, marks_append]
          rw [Argument.render, lossless_step stepped kept,
            lossless_ordinary fun c mem => all c (List.mem_cons_of_mem _ mem)]
          exact (and_iff_right trivial).symm
  | quoted text =>
      have opened : Lossless ⟨.unquoted, words, none⟩ (Argument.quoted text).render s' ↔
          Lossless ⟨.double, words, some []⟩ (text ++ ['"']) s' := lossless_step rfl rfl
      rw [opened, lossless_quoted text noQuote, List.nil_append]
      rfl

theorem lossless_separate {text rest : List Char} :
    Lossless ⟨.unquoted, words, some text⟩ (' ' :: rest) s' ↔
      Lossless ⟨.unquoted, words ++ [text], none⟩ rest s' := by
  apply lossless_step rfl
  simp [State.kept, State.read, marks]

/-- The run over arguments, one after another. -/
theorem lossless_arguments {args : List Argument} (nonempty : args ≠ [])
    (wellFormed : ∀ a ∈ args, a.WellFormed) (noQuote : ∀ a ∈ args, '"' ∉ a.text) :
    Lossless ⟨.unquoted, words, none⟩ ([' '].intercalate (args.map Argument.render)) s' ↔
      (∀ a ∈ args, a.Kept) ∧
        s' = ⟨.unquoted, words ++ (args.map Argument.text).dropLast,
          (args.map Argument.text).getLast?⟩ := by
  induction args generalizing words with
  | nil => exact absurd rfl nonempty
  | cons a args ih =>
      cases args with
      | nil =>
          rw [List.map_singleton, List.intercalate_singleton,
            lossless_render (wellFormed a List.mem_cons_self) (noQuote a List.mem_cons_self)]
          simp only [List.mem_singleton, forall_eq, List.map_cons, List.map_nil,
            List.dropLast_singleton, List.append_nil, List.getLast?_singleton]
      | cons b more =>
          have later := @ih (words ++ [a.text]) (List.cons_ne_nil _ _)
            (fun c mem => wellFormed c (List.mem_cons_of_mem _ mem))
            fun c mem => noQuote c (List.mem_cons_of_mem _ mem)
          have shape : [' '].intercalate ((a :: b :: more).map Argument.render) =
              a.render ++ ' ' :: [' '].intercalate ((b :: more).map Argument.render) := by
            simp [List.intercalate_cons_cons]
          rw [shape, lossless_append]
          constructor
          · rintro ⟨middle, here, there⟩
            obtain ⟨kept, rfl⟩ := (lossless_render (wellFormed a List.mem_cons_self)
              (noQuote a List.mem_cons_self)).mp here
            obtain ⟨keptLater, rfl⟩ := later.mp (lossless_separate.mp there)
            refine ⟨List.forall_mem_cons.mpr ⟨kept, keptLater⟩, ?_⟩
            simp
          · rintro ⟨kept, rfl⟩
            obtain ⟨keptHere, keptLater⟩ := List.forall_mem_cons.mp kept
            refine ⟨_, (lossless_render (wellFormed a List.mem_cons_self)
              (noQuote a List.mem_cons_self)).mpr ⟨keptHere, rfl⟩, ?_⟩
            refine lossless_separate.mpr (later.mpr ⟨keptLater, ?_⟩)
            simp

theorem marks_renders (args : List Argument) :
    marks ([' '].intercalate (args.map Argument.render)) =
      marks (args.map Argument.text).flatten := by
  induction args with
  | nil => rfl
  | cons a args ih =>
      cases args with
      | nil => simp [Argument.marks_render]
      | cons b more =>
          have blank : marks [' '] = 0 := rfl
          rw [List.map_cons, List.map_cons, List.intercalate_cons_cons, ← List.map_cons, marks_append,
            marks_append, ih, Argument.marks_render, blank, Nat.add_zero]
          exact (marks_append _ _).symm

theorem dropLast_append_getLast {α : Type} (texts : List α) :
    texts.dropLast ++ texts.getLast?.toList = texts := by
  rcases List.eq_nil_or_concat texts with rfl | ⟨before, last, rfl⟩
  · rfl
  · simp

/-- **Quoting without escaping.**  Arguments some of which stand between double quotes are
read as they were meant exactly if all that is quoted is inert. -/
theorem split_render_iff {args : List Argument} (nonempty : args ≠ [])
    (wellFormed : ∀ a ∈ args, a.WellFormed) :
    split ([' '].intercalate (args.map Argument.render)) = some (args.map Argument.text) ↔
      ∀ a ∈ args, a.Kept := by
  constructor
  · intro splits
    obtain ⟨s, ran, finished⟩ := Option.bind_eq_some_iff.mp splits
    split at finished
    next mode =>
      have words : s.words ++ s.word.toList = args.map Argument.text := Option.some.inj finished
      have read : s.read = (args.map Argument.text).flatten := by
        rw [← words]
        exact (read_separate s).symm.trans (List.append_nil _)
      have lossless : Lossless .start ([' '].intercalate (args.map Argument.render)) s := by
        refine ⟨ran, ?_⟩
        rw [State.kept, mode, read, marks_renders]
        exact Nat.add_comm _ _
      have calm := lossless.calm ⟨by rintro ⟨⟩, by rintro ⟨⟩, by rintro ⟨⟩⟩
      have noQuote : ∀ a ∈ args, '"' ∉ a.text := by
        intro a mem quote
        apply calm.no_quote
        rw [read]
        exact List.mem_flatten_of_mem (List.mem_map_of_mem mem) quote
      exact ((lossless_arguments nonempty wellFormed noQuote).mp lossless).1
    next => cases finished
  · intro kept
    have noQuote : ∀ a ∈ args, '"' ∉ a.text := fun a mem =>
      (kept a mem).no_quote (wellFormed a mem)
    obtain ⟨ran, -⟩ := (@lossless_arguments [] _ args nonempty wellFormed noQuote).mpr ⟨kept, rfl⟩
    rw [split, State.start, ran, Option.bind_some, if_pos rfl, List.nil_append,
      dropLast_append_getLast]

end Shell

end Cccp
