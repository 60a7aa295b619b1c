import Cccp.Options.IoSpec
import Mathlib.Data.List.TakeWhile

/-!
# Locations that survive

What the expression of `IoSpec::from_str` captures, in closed form, and from it which
locations are read again as they were written.

A user is only recognised if it consists of word characters and dashes; a host that begins
with a bracket is none; and a file that begins like a port is taken for one.
-/

namespace Cccp

open Regex

variable {classes : CharClasses} {captures : Captures Char} {text : List Char}

/-! ## Characters -/

theorem not_word {c : Char} (ascii : c.toNat < 128)
    (other : (c.isAlphanum || decide (c = '_')) = false) : classes.word c = false :=
  (classes.word_ascii c ascii).trans other

theorem user_at : classes.user '@' = false := by
  rw [CharClasses.user, not_word (by decide) (by decide)]
  rfl

theorem host_at : classes.host '@' = false := by
  rw [CharClasses.host, not_word (by decide) (by decide)]
  rfl

theorem host_colon : classes.host ':' = false := by
  rw [CharClasses.host, not_word (by decide) (by decide)]
  rfl

theorem host_bracket : classes.host '[' = false := by
  rw [CharClasses.host, not_word (by decide) (by decide)]
  rfl

theorem user_newline : classes.user '\n' = false := by
  rw [CharClasses.user, not_word (by decide) (by decide)]
  rfl

theorem digit_colon : classes.digit ':' = false :=
  (classes.digit_ascii ':' (by decide)).trans (by decide)

theorem digit_of_isDigit {c : Char} (is : c.isDigit = true) : classes.digit c = true := by
  have ascii : c.toNat < 128 := by
    simp only [Char.isDigit, Bool.and_eq_true, decide_eq_true_eq, UInt32.le_iff_toNat_le] at is
    exact Nat.lt_of_le_of_lt is.2 (by decide)
  exact (classes.digit_ascii c ascii).trans is

theorem host_of_isAlphanum {c : Char} (ascii : c.toNat < 128) (is : c.isAlphanum = true) :
    classes.host c = true := by
  rw [CharClasses.host, classes.word_ascii c ascii, is]
  rfl

/-! ## What is captured -/

/-- What follows the character at the beginning of the text. -/
def after (expected : Char) : List Char → Option (List Char)
  | c :: rest => if c = expected then some rest else none
  | [] => none

/-- `(.+)` -/
def captureFile (text : List Char) (captures : Captures Char) : Option (Captures Char) :=
  if text.takeWhile line = [] then none else some (captures.set 4 (text.takeWhile line))

/-- A colon and the file. -/
def captureRest (text : List Char) (captures : Captures Char) : Option (Captures Char) :=
  (after ':' text).bind fun rest => captureFile rest captures

/-- A colon, digits, a colon and the file. -/
def capturePort (classes : CharClasses) (text : List Char) (captures : Captures Char) :
    Option (Captures Char) :=
  (after ':' text).bind fun rest =>
    if rest.takeWhile classes.digit = [] then none
    else captureRest (rest.dropWhile classes.digit)
      (captures.set 3 (rest.takeWhile classes.digit))

/-- A host, with a port or without one, and the file. -/
def captureHost (classes : CharClasses) (text : List Char) (captures : Captures Char) :
    Option (Captures Char) :=
  if text.takeWhile classes.host = [] then none
  else
    let rest := text.dropWhile classes.host
    let captures := captures.set 2 (text.takeWhile classes.host)
    (capturePort classes rest captures).or (captureRest rest captures)

/-- A user, an at sign, a host and the file. -/
def captureUser (classes : CharClasses) (text : List Char) (captures : Captures Char) :
    Option (Captures Char) :=
  if text.takeWhile classes.user = [] then none
  else (after '@' (text.dropWhile classes.user)).bind fun rest =>
    captureHost classes rest (captures.set 1 (text.takeWhile classes.user))

/-- What the first way captures. -/
def first (regex : Regex Char) (text : List Char) (captures : Captures Char) :
    Option (Captures Char) :=
  (regex.ways text captures).head?.map Way.captures

variable {number : Nat} {class_ : Char → Bool} {inner second third : Regex Char}

theorem first_seq_assoc : first (.seq (.seq inner second) third) text captures =
    first (.seq inner (.seq second third)) text captures := by
  rw [first, ways_seq_assoc]
  rfl

theorem first_optional_seq : first (.seq (.optional inner) second) text captures =
    (first (.seq inner second) text captures).or (first second text captures) := by
  rw [first, ways_optional_seq, List.head?_append, Option.map_or]
  rfl

theorem ways_literal_seq (expected : Char) :
    ways (.seq (literal expected) second) text captures =
      match after expected text with
      | some rest => ways second rest captures
      | none => [] := by
  cases text with
  | nil => rfl
  | cons c rest =>
      rw [literal, ways_chars_seq_cons, after]
      by_cases same : c = expected
      · simp only [same, decide_true, if_true]
      · simp only [same, decide_false, Bool.false_eq_true, if_false]

theorem first_literal_seq (expected : Char) :
    first (.seq (literal expected) second) text captures =
      (after expected text).bind fun rest => first second rest captures := by
  rw [first, ways_literal_seq]
  cases after expected text <;> rfl

theorem first_many_seq (stops : ∀ c rest captures, class_ c = true →
      ways second (c :: rest) captures = []) :
    first (.seq (.group number (.many class_)) second) text captures =
      if text.takeWhile class_ = [] then none
      else first second (text.dropWhile class_) (captures.set number (text.takeWhile class_)) := by
  rw [first, ways_many_seq stops]
  split <;> rfl

theorem first_file : first filePattern text captures = captureFile text captures := by
  rw [first, filePattern, head?_ways_many, captureFile]
  split <;> rfl

theorem first_rest : first (.seq (literal ':') filePattern) text captures =
    captureRest text captures := by
  rw [first_literal_seq, captureRest]
  simp only [first_file]

/-- What begins with a literal cannot begin with a character of another class. -/
theorem literal_stops {expected : Char} (apart : class_ expected = false) (c : Char)
    (rest : List Char) (captures : Captures Char) (is : class_ c = true) :
    ways (.seq (literal expected) second) (c :: rest) captures = [] := by
  have differs : c ≠ expected := by
    rintro rfl
    cases apart.symm.trans is
  rw [ways_literal_seq, after, if_neg differs]

theorem port_stops (apart : class_ ':' = false) (c : Char) (rest : List Char)
    (captures : Captures Char) (is : class_ c = true) :
    ways (.seq (portPattern classes) filePattern) (c :: rest) captures = [] := by
  rw [portPattern, ways_seq_assoc, ways_optional_seq, ways_seq_assoc,
    literal_stops apart c rest captures is, literal_stops apart c rest captures is]
  rfl

theorem first_port : first (.seq (portPattern classes) filePattern) text captures =
    (capturePort classes text captures).or (captureRest text captures) := by
  rw [portPattern, first_seq_assoc, first_optional_seq, first_seq_assoc, first_literal_seq,
    first_rest, capturePort]
  simp only [first_many_seq (literal_stops digit_colon), first_rest]

theorem first_host : first (.seq (hostPattern classes) filePattern) text captures =
    captureHost classes text captures := by
  rw [hostPattern, first_seq_assoc, first_many_seq (port_stops host_colon), first_port]
  rfl

theorem first_user :
    first (.seq (userPattern classes) (.seq (hostPattern classes) filePattern)) text captures =
      captureUser classes text captures := by
  rw [userPattern, first_seq_assoc, first_many_seq (literal_stops user_at), first_literal_seq,
    captureUser]
  simp only [first_host]

/-- **What the expression captures** at a place: user, host and file, or host and file, or
the file alone. -/
theorem first_pattern : first (pattern classes) text captures =
    (captureUser classes text captures).or
      ((captureHost classes text captures).or (captureFile text captures)) := by
  rw [pattern, first_optional_seq, first_seq_assoc, first_optional_seq, first_user, first_host,
    first_file, Option.or_assoc]

/-- The search goes on where nothing is captured. -/
theorem find_cons (c : Char) (rest : List Char) : (pattern classes).find (c :: rest) =
    (first (pattern classes) (c :: rest) fun _ => none).or ((pattern classes).find rest) := rfl

/-! ## Addresses that are read again -/

theorem decimal_ne_nil (n : Nat) : decimal n ≠ [] := Nat.toDigits_ne_nil

theorem isDigit_of_mem_decimal {n : Nat} {c : Char} (mem : c ∈ decimal n) : c.isDigit = true :=
  Nat.isDigit_of_mem_toDigits (by decide) (by decide) mem

theorem parsePort_decimal (port : UInt16) : parsePort (decimal port.toNat) = some port := by
  have value : Nat.ofDigitChars 10 (decimal port.toNat) 0 = port.toNat :=
    Nat.ofDigitChars_ten_toDigits
  rw [parsePort, value, if_pos, UInt16.ofNat_toNat]
  exact ⟨decimal_ne_nil _, List.all_eq_true.mpr fun c => isDigit_of_mem_decimal, port.toNat_lt⟩

theorem parseOctet_decimal (octet : UInt8) : parseOctet (decimal octet.toNat) = some octet := by
  have all : ∀ n < 256, parseOctet (decimal n) = some (UInt8.ofNat n) := by
    decide +kernel
  rw [all octet.toNat octet.toNat_lt, UInt8.ofNat_toNat]

theorem parseIp_display (ip : Ipv4) : parseIp ip.display = some ip := by
  have plain : ∀ n, '.' ∉ decimal n := fun n mem =>
    absurd (isDigit_of_mem_decimal mem) (by decide)
  have pieces : ip.display.splitOn '.' =
      [decimal ip.a.toNat, decimal ip.b.toNat, decimal ip.c.toNat, decimal ip.d.toNat] := by
    refine List.splitOn_intercalate '.' ?_ (List.cons_ne_nil _ _)
    intro piece mem
    simp only [List.mem_cons, List.not_mem_nil, or_false] at mem
    rcases mem with rfl | rfl | rfl | rfl <;> exact plain _
  rw [parseIp, pieces]
  simp only [parseOctet_decimal]
  rfl

theorem host_of_isDigit {c : Char} (is : c.isDigit = true) : classes.host c = true := by
  have ascii : c.toNat < 128 := by
    simp only [Char.isDigit, Bool.and_eq_true, decide_eq_true_eq, UInt32.le_iff_toNat_le] at is
    exact Nat.lt_of_le_of_lt is.2 (by decide)
  exact host_of_isAlphanum ascii (by rw [Char.isAlphanum, is, Bool.or_true])

theorem host_of_mem_ipv4 {ip : Ipv4} {c : Char} (mem : c ∈ ip.display) : classes.host c = true := by
  have dot : classes.host '.' = true := by
    simp [CharClasses.host]
  have digits : ∀ {n}, c ∈ decimal n → classes.host c = true := fun mem =>
    host_of_isDigit (isDigit_of_mem_decimal mem)
  simp only [Ipv4.display, List.intercalate, List.intersperse, List.flatten_cons, List.flatten_nil,
    List.mem_append, List.mem_singleton, List.append_nil] at mem
  rcases mem with mem | rfl | mem | rfl | mem | rfl | mem
  all_goals first | exact dot | exact digits mem

theorem display_ne_nil (ip : Ipv4) : ip.display ≠ [] := by
  have first := decimal_ne_nil ip.a.toNat
  simp [Ipv4.display, List.intercalate, List.intersperse, first]

/-! ## What captures say about the text -/

theorem after_eq_some {expected : Char} {rest : List Char} :
    after expected text = some rest ↔ text = expected :: rest := by
  cases text with
  | nil => simp [after]
  | cons c more =>
      unfold after
      split
      next same => simp [same]
      next differs => simp [differs]

theorem captureFile_eq_some {captures' : Captures Char}
    (captured : captureFile text captures = some captures') :
    text.takeWhile line ≠ [] ∧ captures' = captures.set 4 (text.takeWhile line) := by
  unfold captureFile at captured
  split at captured
  next => cases captured
  next some_ => exact ⟨some_, (Option.some.inj captured).symm⟩

theorem captureRest_eq_some {captures' : Captures Char}
    (captured : captureRest text captures = some captures') :
    ∃ rest, text = ':' :: rest ∧ rest.takeWhile line ≠ [] ∧
      captures' = captures.set 4 (rest.takeWhile line) := by
  obtain ⟨rest, here, captured⟩ := Option.bind_eq_some_iff.mp captured
  exact ⟨rest, after_eq_some.mp here, captureFile_eq_some captured⟩

/-- A host takes a beginning of the text in which there is no at sign; the rest is the
file. -/
theorem captureHost_eq_some {captures' : Captures Char}
    (captured : captureHost classes text captures = some captures') :
    ∃ before rest, text = before ++ rest ∧ '@' ∉ before ∧ rest.takeWhile line ≠ [] ∧
      captures' 4 = some (rest.takeWhile line) ∧ captures' 1 = captures 1 := by
  have unhosted : '@' ∉ text.takeWhile classes.host := fun mem =>
    Bool.noConfusion (host_at.symm.trans (List.mem_takeWhile_imp mem))
  have parts := List.takeWhile_append_dropWhile (p := classes.host) (l := text)
  unfold captureHost at captured
  split at captured
  next => cases captured
  next =>
    rcases Option.or_eq_some_iff.mp captured with port | ⟨-, direct⟩
    · obtain ⟨rest, here, port⟩ := Option.bind_eq_some_iff.mp port
      split at port
      next => cases port
      next =>
        obtain ⟨file, shape, some_, rfl⟩ := captureRest_eq_some port
        have undigited : '@' ∉ rest.takeWhile classes.digit := by
          intro mem
          have no : classes.digit '@' = false :=
            (classes.digit_ascii '@' (by decide)).trans (by decide)
          exact Bool.noConfusion (no.symm.trans (List.mem_takeWhile_imp mem))
        refine ⟨text.takeWhile classes.host ++ ':' :: (rest.takeWhile classes.digit ++ [':']), file,
          ?_, ?_, some_, rfl, rfl⟩
        · have digits := List.takeWhile_append_dropWhile (p := classes.digit) (l := rest)
          rw [shape] at digits
          rw [List.append_assoc, List.cons_append, List.append_assoc, List.singleton_append, digits,
            ← after_eq_some.mp here, parts]
        · simp only [List.mem_append, List.mem_cons, List.not_mem_nil, or_false, not_or]
          exact ⟨unhosted, by decide, undigited, by decide⟩
    · obtain ⟨file, shape, some_, rfl⟩ := captureRest_eq_some direct
      refine ⟨text.takeWhile classes.host ++ [':'], file, ?_, ?_, some_, rfl, rfl⟩
      · rw [List.append_assoc, List.singleton_append, ← shape, parts]
      · simp only [List.mem_append, List.mem_cons, List.not_mem_nil, or_false, not_or]
        exact ⟨unhosted, by decide⟩

/-- A user takes all before the first at sign. -/
theorem captureUser_eq_some {captures' : Captures Char}
    (captured : captureUser classes text captures = some captures') :
    ∃ user rest, text = user ++ '@' :: rest ∧ user ≠ [] ∧ (∀ c ∈ user, classes.user c = true) ∧
      captureHost classes rest (captures.set 1 user) = some captures' := by
  unfold captureUser at captured
  split at captured
  next => cases captured
  next some_ =>
    obtain ⟨rest, here, captured⟩ := Option.bind_eq_some_iff.mp captured
    refine ⟨text.takeWhile classes.user, rest, ?_, some_, fun c => List.mem_takeWhile_imp, captured⟩
    rw [← after_eq_some.mp here, List.takeWhile_append_dropWhile]

/-- The user that is captured, if any, is word characters and dashes; a file is captured,
without line breaks. -/
theorem find_captures (found : (pattern classes).find text = some captures) :
    (captures 1 = none ∨ ∃ user, captures 1 = some user ∧ user ≠ [] ∧
      ∀ c ∈ user, classes.user c = true) ∧
    ∃ file, captures 4 = some file ∧ file ≠ [] ∧ '\n' ∉ file := by
  have lines : ∀ rest : List Char, '\n' ∉ rest.takeWhile line := fun rest mem =>
    Bool.noConfusion (List.mem_takeWhile_imp mem : line '\n' = true)
  have place : ∀ {text : List Char}, first (pattern classes) text (fun _ => none) = some captures →
      (captures 1 = none ∨ ∃ user, captures 1 = some user ∧ user ≠ [] ∧
        ∀ c ∈ user, classes.user c = true) ∧
      ∃ file, captures 4 = some file ∧ file ≠ [] ∧ '\n' ∉ file := by
    intro text captured
    rw [first_pattern] at captured
    rcases Option.or_eq_some_iff.mp captured with user | ⟨-, captured⟩
    · obtain ⟨user, rest, -, some_, are, host⟩ := captureUser_eq_some user
      obtain ⟨-, file, -, -, nonempty, at4, at1⟩ := captureHost_eq_some host
      exact ⟨.inr ⟨user, at1, some_, are⟩, _, at4, nonempty, lines _⟩
    · rcases Option.or_eq_some_iff.mp captured with host | ⟨-, file⟩
      · obtain ⟨-, file, -, -, nonempty, at4, at1⟩ := captureHost_eq_some host
        exact ⟨.inl at1, _, at4, nonempty, lines _⟩
      · obtain ⟨nonempty, rfl⟩ := captureFile_eq_some file
        exact ⟨.inl rfl, _, rfl, nonempty, lines _⟩
  induction text with
  | nil => exact place found
  | cons c rest ih =>
      rw [find_cons] at found
      rcases Option.or_eq_some_iff.mp found with here | ⟨-, later⟩
      · exact place here
      · exact ih later

/-- Where a line begins with the text, the search ends at once. -/
theorem find_of_line {c : Char} {rest : List Char} (is : line c = true) :
    (pattern classes).find (c :: rest) = first (pattern classes) (c :: rest) fun _ => none := by
  rw [find_cons, first_pattern, captureFile, if_neg]
  · cases (captureUser classes (c :: rest) fun _ => none) <;>
      cases (captureHost classes (c :: rest) fun _ => none) <;> rfl
  · rw [List.takeWhile_cons_of_pos is]
    exact List.cons_ne_nil _ _

/-! ## Locations that are read again -/

namespace IoSpec

variable {env : Environment} {x : IoSpec}

/-- Reading what was written gives the same location; one without a host may have become
one on a loopback host. -/
def ReadAgain (classes : CharClasses) (env : Environment) (x : IoSpec) : Prop :=
  ∃ y, fromStr classes env x.display = .ok y ∧ y.filePath = x.filePath ∧
    y.username = x.username ∧
    (y.host = x.host ∨ x.host = none ∧ ∃ host, y.host = some host ∧ host.isLoopback = true)

/-- `localhost` is a loopback host. -/
def LocalhostLoops (env : Environment) : Prop :=
  ∀ port, ∃ first others, env.toSocketAddrs localhost port = some (first :: others) ∧
    first.isLoopback = true

/-- The location is read again as it was written, whatever the remote's user is and
whatever other names its resolver knows. -/
def Survives (classes : CharClasses) (x : IoSpec) : Prop :=
  ∀ env, LocalhostLoops env → x.ReadAgain classes env

/-- The file begins with digits and a colon, and goes on. -/
def PortLike (classes : CharClasses) (file : List Char) : Prop :=
  file.takeWhile classes.digit ≠ [] ∧
    ∃ c rest, file.dropWhile classes.digit = ':' :: c :: rest

/-- The user is word characters and dashes, there is no IPv6 host, and without a host the
file does not begin like a port. -/
def Survivable (classes : CharClasses) (x : IoSpec) : Prop :=
  x.username ≠ [] ∧ (∀ c ∈ x.username, classes.user c = true) ∧
    match x.host with
    | none => ¬ PortLike classes x.filePath
    | some (.v4 ..) => True
    | some (.v6 ..) => False

theorem bind_eq_ok {ε α β : Type} {made : Except ε α} {next : α → Except ε β} {b : β}
    (ok : (made >>= next) = .ok b) : ∃ a, made = .ok a ∧ next a = .ok b := by
  cases made with
  | error _ => cases ok
  | ok a => exact ⟨a, rfl, ok⟩

theorem ofCaptures_eq_ok {captures : Captures Char} (made : ofCaptures env captures = .ok x) :
    ∃ port host, portOf captures = .ok port ∧ hostOf env captures port = .ok host ∧
      x = ⟨(captures 4).getD [], host, (captures 1).getD env.whoami⟩ := by
  obtain ⟨port, read, made⟩ := bind_eq_ok made
  obtain ⟨host, resolved, made⟩ := bind_eq_ok made
  exact ⟨port, host, read, resolved, (Except.ok.inj made).symm⟩

theorem fromStr_eq_ok (parsed : fromStr classes env text = .ok x) :
    ∃ captures, (pattern classes).find text = some captures ∧ ofCaptures env captures = .ok x := by
  unfold fromStr at parsed
  split at parsed
  next => cases parsed
  next captures found => exact ⟨captures, found, parsed⟩

/-- A file that was read is a part of a line. -/
theorem filePath_of_fromStr (parsed : fromStr classes env text = .ok x) :
    x.filePath ≠ [] ∧ '\n' ∉ x.filePath := by
  obtain ⟨captures, found, made⟩ := fromStr_eq_ok parsed
  obtain ⟨-, file, at4, nonempty, lines⟩ := find_captures found
  obtain ⟨port, host, -, -, rfl⟩ := ofCaptures_eq_ok made
  rw [at4]
  exact ⟨nonempty, lines⟩

theorem takeWhile_line {text : List Char} (lines : '\n' ∉ text) : text.takeWhile line = text := by
  refine List.takeWhile_eq_self_iff.mpr fun c mem => decide_eq_true ?_
  rintro rfl
  exact lines mem

theorem captureFile_line {captures : Captures Char} (nonempty : text ≠ []) (lines : '\n' ∉ text) :
    captureFile text captures = some (captures.set 4 text) := by
  rw [captureFile, takeWhile_line lines, if_neg nonempty]

/-- A repetition of a class takes what is in the class, up to what is not. -/
theorem span_stop {class_ : Char → Bool} {stop : Char} {before : List Char} (rest : List Char)
    (all : ∀ c ∈ before, class_ c = true) (stops : class_ stop = false) :
    (before ++ stop :: rest).takeWhile class_ = before ∧
      (before ++ stop :: rest).dropWhile class_ = stop :: rest := by
  have no : ¬ class_ stop = true := by
    rw [stops]
    exact Bool.false_ne_true
  rw [List.takeWhile_append_of_pos all, List.dropWhile_append_of_pos all,
    List.takeWhile_cons_of_neg no, List.dropWhile_cons_of_neg no, List.append_nil]
  exact ⟨rfl, rfl⟩

theorem capturePort_of_portLike {captures : Captures Char} {file : List Char}
    (port : PortLike classes file) (lines : '\n' ∉ file) : ∃ captures' rest,
      capturePort classes (':' :: file) captures = some captures' ∧ captures' 4 = some rest ∧
        rest.length < file.length := by
  obtain ⟨digits, c, rest, shape⟩ := port
  have parts := List.takeWhile_append_dropWhile (p := classes.digit) (l := file)
  have inner : '\n' ∉ c :: rest := by
    intro mem
    refine lines ?_
    rw [← parts, shape]
    exact List.mem_append_right _ (List.mem_cons_of_mem _ mem)
  refine ⟨(captures.set 3 (file.takeWhile classes.digit)).set 4 (c :: rest), c :: rest, ?_, rfl, ?_⟩
  · show (if file.takeWhile classes.digit = [] then none
      else captureRest (file.dropWhile classes.digit) _) = _
    rw [if_neg digits, shape]
    exact captureFile_line (List.cons_ne_nil _ _) inner
  · rw [← parts, shape]
    simp only [List.length_append, List.length_cons]
    omega

/-- Without a beginning like a port, the file follows the host. -/
theorem capturePort_of_not_portLike {captures : Captures Char} {file : List Char}
    (port : ¬ PortLike classes file) : capturePort classes (':' :: file) captures = none := by
  show (if file.takeWhile classes.digit = [] then none
    else captureRest (file.dropWhile classes.digit) _) = none
  split
  next => rfl
  next digits =>
    rw [← Option.not_isSome_iff_eq_none]
    intro captured
    obtain ⟨captures', captured⟩ := Option.isSome_iff_exists.mp captured
    obtain ⟨rest, shape, nonempty, -⟩ := captureRest_eq_some captured
    cases rest with
    | nil => exact nonempty rfl
    | cons c rest => exact port ⟨digits, c, rest, shape⟩

theorem captureHost_colon {captures : Captures Char} {host rest : List Char} (nonempty : host ≠ [])
    (all : ∀ c ∈ host, classes.host c = true) : captureHost classes (host ++ ':' :: rest) captures =
      (capturePort classes (':' :: rest) (captures.set 2 host)).or
        (captureRest (':' :: rest) (captures.set 2 host)) := by
  have span := span_stop rest all host_colon
  rw [captureHost, span.1, span.2, if_neg nonempty]

/-- Where the user is recognised, the rest of the text is the host and the file. -/
theorem captureUser_display {captures : Captures Char} (nonempty : x.username ≠ [])
    (all : ∀ c ∈ x.username, classes.user c = true) : captureUser classes x.display captures =
      captureHost classes (displayHost x.host ++ ':' :: x.filePath)
        (captures.set 1 x.username) := by
  have span := span_stop (displayHost x.host ++ ':' :: x.filePath) all user_at
  rw [captureUser, display, span.1, span.2, if_neg nonempty]
  rfl

theorem find_display (nonempty : x.username ≠ [])
    (all : ∀ c ∈ x.username, classes.user c = true) : (pattern classes).find x.display =
      (captureHost classes (displayHost x.host ++ ':' :: x.filePath)
        (Captures.set (fun _ => none) 1 x.username)).or
      ((captureHost classes x.display fun _ => none).or (captureFile x.display fun _ => none)) := by
  rw [← captureUser_display nonempty all, ← first_pattern]
  cases user : x.username with
  | nil => exact absurd user nonempty
  | cons c rest =>
      have is : line c = true := by
        apply decide_eq_true
        rintro rfl
        exact Bool.noConfusion (user_newline.symm.trans (all _ (user ▸ List.mem_cons_self)))
      rw [display, user]
      exact find_of_line is

theorem localhost_ne_nil : localhost ≠ [] := List.cons_ne_nil _ _

theorem localhost_host : ∀ c ∈ localhost, classes.host c = true := by
  intro c mem
  have all : localhost.all (fun c => decide (c.toNat < 128) && c.isAlphanum) = true := by decide
  obtain ⟨ascii, is⟩ := Bool.and_eq_true_iff.mp (List.all_eq_true.mp all c mem)
  exact host_of_isAlphanum (of_decide_eq_true ascii) is

/-- A remote whose own user has another name. -/
def otherUser (x : IoSpec) : Environment where
  whoami := 'a' :: x.username
  toSocketAddrs := fun _ port => some [.v4 ⟨127, 0, 0, 1⟩ port]

theorem otherUser_loops : LocalhostLoops x.otherUser :=
  fun _ => ⟨_, _, rfl, rfl⟩

/-- What names its user for every remote is read by the first way of the expression. -/
theorem captureHost_of_readAgain (again : x.ReadAgain classes x.otherUser) :
    x.username ≠ [] ∧ (∀ c ∈ x.username, classes.user c = true) ∧
      ∃ captures, captureHost classes (displayHost x.host ++ ':' :: x.filePath)
        (Captures.set (fun _ => none) 1 x.username) = some captures ∧
          captures 4 = some x.filePath := by
  obtain ⟨y, parsed, sameFile, sameUser, -⟩ := again
  obtain ⟨captures, found, made⟩ := fromStr_eq_ok parsed
  obtain ⟨port, host, -, -, rfl⟩ := ofCaptures_eq_ok made
  obtain ⟨userFacts, file, at4, -, -⟩ := find_captures found
  have at1 : captures 1 = some x.username := by
    cases here : captures 1 with
    | none =>
        simp only [here, Option.getD_none, otherUser] at sameUser
        exact absurd sameUser (List.cons_ne_self _ _)
    | some user =>
        simp only [here, Option.getD_some] at sameUser
        rw [sameUser]
  have recognised : x.username ≠ [] ∧ ∀ c ∈ x.username, classes.user c = true := by
    rcases userFacts with absent | ⟨user, here, facts⟩
    · cases at1.symm.trans absent
    · cases at1.symm.trans here
      exact facts
  refine ⟨recognised.1, recognised.2, captures, ?_, ?_⟩
  · rw [find_display recognised.1 recognised.2] at found
    rcases Option.or_eq_some_iff.mp found with user | ⟨-, found⟩
    · exact user
    -- without a user, none would be captured
    rcases Option.or_eq_some_iff.mp found with host | ⟨-, file⟩
    · obtain ⟨-, -, -, -, -, -, same⟩ := captureHost_eq_some host
      cases at1.symm.trans same
    · obtain ⟨-, rfl⟩ := captureFile_eq_some file
      cases at1
  · simp only [at4, Option.getD_some] at sameFile
    rw [at4, sameFile]

theorem survivable_of_survives (lines : '\n' ∉ x.filePath) (survives : x.Survives classes) :
    x.Survivable classes := by
  obtain ⟨nonempty, all, captures, captured, at4⟩ :=
    captureHost_of_readAgain (survives _ otherUser_loops)
  refine ⟨nonempty, all, ?_⟩
  cases host : x.host with
  | none =>
      intro port
      rw [host, displayHost, captureHost_colon localhost_ne_nil localhost_host] at captured
      obtain ⟨captures', rest, taken, at4', shorter⟩ := capturePort_of_portLike port lines
      rw [taken] at captured
      cases captured
      cases at4.symm.trans at4'
      exact absurd shorter (Nat.lt_irrefl _)
  | some host' =>
      cases host' with
      | v4 _ _ => exact trivial
      | v6 ip port flowinfo scopeId =>
          have bracket : ∀ rest captures, captureHost classes ('[' :: rest) captures = none := by
            intro rest captures
            rw [captureHost, List.takeWhile_cons_of_neg, if_pos rfl]
            rw [host_bracket]
            exact Bool.false_ne_true
          rw [host] at captured
          cases (bracket _ _).symm.trans captured

theorem portOf_eq_ok {captures : Captures Char} {digits : List Char} {port : UInt16}
    (at3 : captures 3 = some digits) (read : parsePort digits = some port) :
    portOf captures = .ok port := by
  rw [portOf, at3]
  simp only [read]

/-- Where the host is recognised, all that is read again is what it resolves to. -/
theorem readAgain_of_captured (captures : Captures Char) (port : UInt16) (host : Option SocketAddr)
    (nonempty : x.username ≠ []) (all : ∀ c ∈ x.username, classes.user c = true)
    (captured : captureHost classes (displayHost x.host ++ ':' :: x.filePath)
      (Captures.set (fun _ => none) 1 x.username) = some captures)
    (at1 : captures 1 = some x.username) (at4 : captures 4 = some x.filePath)
    (read : portOf captures = .ok port) (resolved : hostOf env captures port = .ok host)
    (same : host = x.host ∨ x.host = none ∧ ∃ first, host = some first ∧ first.isLoopback = true) :
    x.ReadAgain classes env := by
  refine ⟨⟨x.filePath, host, x.username⟩, ?_, rfl, rfl, same⟩
  rw [fromStr, find_display nonempty all, captured, Option.some_or]
  simp only [ofCaptures, read, resolved, at1, at4, Option.getD_some, bind, Except.bind]
  rfl

theorem readAgain_of_none (loops : LocalhostLoops env) (fileNonempty : x.filePath ≠ [])
    (lines : '\n' ∉ x.filePath) (nonempty : x.username ≠ [])
    (all : ∀ c ∈ x.username, classes.user c = true) (host : x.host = none)
    (port : ¬ PortLike classes x.filePath) : x.ReadAgain classes env := by
  obtain ⟨first, others, resolved, loopback⟩ := loops 22
  have local_ : parseIp localhost = none := by decide
  refine readAgain_of_captured
    (((Captures.set (fun _ => none) 1 x.username).set 2 localhost).set 4 x.filePath) 22 (some first)
    nonempty all ?_ rfl rfl rfl ?_ (.inr ⟨host, first, rfl, loopback⟩)
  · rw [host, displayHost, captureHost_colon localhost_ne_nil localhost_host,
      capturePort_of_not_portLike port, Option.none_or]
    exact captureFile_line fileNonempty lines
  · show some <$> resolveHost env localhost 22 = _
    rw [resolveHost, local_, resolved]
    rfl

theorem readAgain_of_v4 {ip : Ipv4} {port : UInt16} (fileNonempty : x.filePath ≠ [])
    (lines : '\n' ∉ x.filePath) (nonempty : x.username ≠ [])
    (all : ∀ c ∈ x.username, classes.user c = true) (host : x.host = some (.v4 ip port)) :
    x.ReadAgain classes env := by
  have digits : ∀ c ∈ decimal port.toNat, classes.digit c = true := fun c mem =>
    digit_of_isDigit (isDigit_of_mem_decimal mem)
  have span := span_stop x.filePath digits digit_colon
  refine readAgain_of_captured
    ((((Captures.set (fun _ => none) 1 x.username).set 2 ip.display).set 3
      (decimal port.toNat)).set 4 x.filePath) port (some (.v4 ip port))
    nonempty all ?_ rfl rfl ?_ ?_ (.inl host.symm)
  · rw [host, displayHost, SocketAddr.display, List.append_assoc,
      List.cons_append, captureHost_colon (display_ne_nil ip) fun c => host_of_mem_ipv4]
    have taken : ∀ captures : Captures Char, capturePort classes
        (':' :: (decimal port.toNat ++ ':' :: x.filePath)) captures =
          some ((captures.set 3 (decimal port.toNat)).set 4 x.filePath) := by
      intro captures
      show (if (decimal port.toNat ++ ':' :: x.filePath).takeWhile classes.digit = [] then none
        else captureRest _ _) = _
      rw [span.1, span.2, if_neg (decimal_ne_nil _)]
      exact captureFile_line fileNonempty lines
    rw [taken, Option.some_or]
  · exact portOf_eq_ok rfl (parsePort_decimal port)
  · show some <$> resolveHost env ip.display port = _
    rw [resolveHost, parseIp_display]
    rfl

end IoSpec

/-- **The locations that survive.**  A location that was read, is written and is read again
on the remote is the same one exactly if its user is recognised, its host is no IPv6 one,
and, without a host, its file does not begin like a port. -/
theorem survives_iff {env : Environment} {x : IoSpec}
    (parsed : IoSpec.fromStr classes env text = .ok x) :
    x.Survives classes ↔ x.Survivable classes := by
  obtain ⟨fileNonempty, lines⟩ := IoSpec.filePath_of_fromStr parsed
  refine ⟨IoSpec.survivable_of_survives lines, fun ⟨nonempty, all, hosted⟩ remote loops => ?_⟩
  cases host : x.host with
  | none =>
      rw [host] at hosted
      exact IoSpec.readAgain_of_none loops fileNonempty lines nonempty all host hosted
  | some host' =>
      rw [host] at hosted
      cases host' with
      | v4 _ _ => exact IoSpec.readAgain_of_v4 fileNonempty lines nonempty all host
      | v6 _ _ _ _ => exact hosted.elim

/-- The classes of ASCII, where there is no other text. -/
def asciiClasses : CharClasses where
  word := fun c => c.isAlphanum || decide (c = '_')
  digit := Char.isDigit
  word_ascii := fun _ _ => rfl
  digit_ascii := fun _ _ => rfl

/-- A host whose user is `user`. -/
def hostOfUser (user : List Char) : Environment where
  whoami := user
  toSocketAddrs := fun _ port => some [.v4 ⟨127, 0, 0, 1⟩ port]

theorem plain_user_survives : (IoSpec.mk ['a'] none ['u']).Survives asciiClasses :=
  (@survives_iff asciiClasses ['a'] (hostOfUser ['u']) _ rfl).mpr
    ⟨List.cons_ne_nil _ _, List.forall_mem_singleton.mpr (by decide), fun port => port.1 rfl⟩

/-- A user with a dot becomes a part of the file: even a remote with this very user takes the
whole text for a local file. -/
theorem dotted_user_lost :
    let x : IoSpec := ⟨['a'], none, ['j', '.', 'd']⟩
    IoSpec.fromStr asciiClasses (hostOfUser x.username) ['a'] = .ok x ∧
      IoSpec.fromStr asciiClasses (hostOfUser x.username) x.display =
        .ok ⟨x.display, none, x.username⟩ ∧
      ¬ x.Survives asciiClasses := by
  refine ⟨rfl, rfl, fun survives => ?_⟩
  have recognised := (IoSpec.survivable_of_survives (by decide) survives).2.1
  exact absurd (recognised '.' (by decide)) (by decide)

end Cccp
