import Cccp.Options.Command

/-!
# Ports and threads

A local `main` fits the ports and the threads of its options to each other; the two control
streams then take a port each, and `socket_factory` opens a socket for every port that is
left.

`ports_fit_iff` says when there is one socket for each thread: `threads` is compared after a
cast to `u16`, and nothing asks for a thread at all.
-/

namespace Cccp

/-! ## Arithmetic on `u16` -/

/-- How `main` ends before it connects: it refuses the options, or an operation on machine
integers panics. -/
inductive Stop where
  | exit (message : List Char)
  | overflowed
  deriving DecidableEq

/-- `a + b`; a build without overflow checks wraps. -/
def addU16 (checks : Bool) (a b : UInt16) : Except Stop UInt16 :=
  if checks ∧ 2 ^ 16 ≤ a.toNat + b.toNat then .error .overflowed else .ok (a + b)

/-- `a - b` -/
def subU16 (checks : Bool) (a b : UInt16) : Except Stop UInt16 :=
  if checks ∧ a.toNat < b.toNat then .error .overflowed else .ok (a - b)

theorem addU16_eq {checks : Bool} {a b : UInt16} (fits : a.toNat + b.toNat < 2 ^ 16) :
    addU16 checks a b = .ok (a + b) :=
  if_neg fun wraps => Nat.not_le.mpr fits wraps.2

theorem toNat_add_of_fits {a b : UInt16} (fits : a.toNat + b.toNat < 2 ^ 16) :
    (a + b).toNat = a.toNat + b.toNat :=
  (UInt16.toNat_add a b).trans (Nat.mod_eq_of_lt fits)

theorem subU16_eq {checks : Bool} {a b : UInt16} (fits : b ≤ a) :
    subU16 checks a b = .ok (a - b) :=
  if_neg fun wraps => Nat.not_lt.mpr (UInt16.le_iff_toNat_le.mp fits) wraps.2

/-! ## What `main` does with the options -/

/-- The modes of a client that the user starts. -/
inductive Mode where
  | local
  | controller
  deriving DecidableEq

/-- `IoSpec::is_local` -/
def IoSpec.isLocal (spec : IoSpec) : Bool :=
  match spec.host with
  | none => true
  | some host => host.isLoopback

namespace Options

/-- The ports and the threads after the validation. -/
def fitPorts (checks : Bool) (o : Options) : Except Stop Options := do
  if o.endPort < o.startPort then
    .error (.exit "end port must be greater than start port".toList)
  else
    let span ← subU16 checks o.endPort o.startPort
    let portCount ← addU16 checks span 1
    if portCount < 3 then
      .error (.exit "a minimum of three ports are required".toList)
    else
      let dataPorts ← subU16 checks portCount 2
      if dataPorts < o.threads.toUInt16 then
        .ok { o with threads := dataPorts.toUInt64 }
      else if o.threads.toUInt16 < dataPorts then
        let last ← addU16 checks o.startPort o.threads.toUInt16
        let newEnd ← addU16 checks last 1
        .ok { o with endPort := newEnd }
      else .ok o

/-- The validation of a local `main`: the options it goes on with, and its mode. -/
def validate (checks : Bool) (o : Options) : Except Stop (Mode × Options) := do
  let fitted ← o.fitPorts checks
  if fitted.source.isLocal && fitted.destination.isLocal then
    .error (.exit "both the source and destination cannot be local".toList)
  else if !fitted.source.isLocal && !fitted.destination.isLocal then
    .ok (.controller, fitted)
  else .ok (.local, fitted)

/-- What `connect_stream` and `listen_stream` do to the options. -/
def takePort (checks : Bool) (o : Options) : Except Stop Options := do
  let next ← addU16 checks o.startPort 1
  .ok { o with startPort := next }

/-- The ports for which `socket_factory` opens a socket: `start..=end`. -/
def socketPorts (o : Options) : List UInt16 :=
  (List.range' o.startPort.toNat (o.endPort.toNat + 1 - o.startPort.toNat)).map UInt16.ofNat

/-- The validation leaves a range of the ports that were given, and after two streams a
socket for every thread, and at least one. -/
def PortsFit (checks : Bool) (o : Options) : Prop :=
  ∃ mode fitted first opened, o.validate checks = .ok (mode, fitted) ∧
    o.startPort ≤ fitted.startPort ∧ fitted.startPort ≤ fitted.endPort ∧
    fitted.endPort ≤ o.endPort ∧
    fitted.takePort checks = .ok first ∧ first.takePort checks = .ok opened ∧
    opened.socketPorts.length = opened.threads.toNat ∧ opened.socketPorts ≠ []

/-! ## What is left of the ports -/

variable {checks : Bool} {o : Options}

/-- The ports and the threads that fit each other: there are fewer ports for data than
threads are compared with, or more, or as many. -/
inductive Fitted (o : Options) : Options → Prop
  | fewer (less : o.endPort.toNat - o.startPort.toNat - 1 < o.threads.toNat % 2 ^ 16)
      (threads : UInt64)
      (all : threads.toNat = o.endPort.toNat - o.startPort.toNat - 1) :
      Fitted o { o with threads := threads }
  | more (less : o.threads.toNat % 2 ^ 16 < o.endPort.toNat - o.startPort.toNat - 1)
      (newEnd : UInt16)
      (some_ : newEnd.toNat = o.startPort.toNat + o.threads.toNat % 2 ^ 16 + 1) :
      Fitted o { o with endPort := newEnd }
  | same (equal : o.threads.toNat % 2 ^ 16 = o.endPort.toNat - o.startPort.toNat - 1) :
      Fitted o o

theorem addsOne (ordered : o.startPort ≤ o.endPort)
    (few : o.endPort.toNat - o.startPort.toNat + 1 < 2 ^ 16) :
    (o.endPort - o.startPort).toNat + (1 : UInt16).toNat < 2 ^ 16 := by
  rw [UInt16.toNat_sub_of_le _ _ ordered]
  exact few

theorem toNat_portCount (ordered : o.startPort ≤ o.endPort)
    (few : o.endPort.toNat - o.startPort.toNat + 1 < 2 ^ 16) :
    (o.endPort - o.startPort + 1).toNat = o.endPort.toNat - o.startPort.toNat + 1 := by
  rw [toNat_add_of_fits (addsOne ordered few), UInt16.toNat_sub_of_le _ _ ordered]
  rfl

/-- With two ports for the streams and at least one for data, the rest is made to fit. -/
theorem fitPorts_enough (ordered : o.startPort ≤ o.endPort)
    (few : o.endPort.toNat - o.startPort.toNat + 1 < 2 ^ 16)
    (enough : o.startPort.toNat + 2 ≤ o.endPort.toNat) :
    ∃ fitted, o.fitPorts checks = .ok fitted ∧ o.Fitted fitted := by
  have endBound := o.endPort.toNat_lt
  have count := toNat_portCount ordered few
  have threads : o.threads.toUInt16.toNat = o.threads.toNat % 2 ^ 16 := UInt64.toNat_toUInt16 _
  have atLeast : ∀ n : UInt16, n.toNat ≤ 3 → n ≤ o.endPort - o.startPort + 1 := by
    intro n le
    rw [UInt16.le_iff_toNat_le, count]
    omega
  have two := atLeast 2 (by decide)
  have data : (o.endPort - o.startPort + 1 - 2).toNat =
      o.endPort.toNat - o.startPort.toNat - 1 := by
    rw [UInt16.toNat_sub_of_le _ _ two, count]
    rfl
  rw [fitPorts, if_neg (UInt16.not_lt.mpr ordered), subU16_eq ordered]
  simp only [bind, Except.bind]
  rw [addU16_eq (addsOne ordered few)]
  dsimp only
  rw [if_neg (UInt16.not_lt.mpr (atLeast 3 (by decide))), subU16_eq two]
  simp only [UInt16.lt_iff_toNat_lt, data, threads]
  split
  next less =>
    refine ⟨_, rfl, .fewer less _ ?_⟩
    rw [UInt16.toNat_toUInt64, data]
  next notLess =>
    split
    next less =>
      have fits : o.startPort.toNat + o.threads.toUInt16.toNat < 2 ^ 16 := by omega
      have last := toNat_add_of_fits fits
      have fits' : (o.startPort + o.threads.toUInt16).toNat + (1 : UInt16).toNat < 2 ^ 16 := by
        rw [last, threads]
        change _ + 1 < _
        omega
      rw [addU16_eq fits]
      dsimp only
      rw [addU16_eq fits']
      refine ⟨_, rfl, .more less _ ?_⟩
      rw [toNat_add_of_fits fits', last, threads]
      rfl
    next notMore => exact ⟨o, rfl, .same (by omega)⟩

/-- The ports are refused, or counting them overflows, or they are made to fit. -/
theorem fitPorts_cases (checks : Bool) (o : Options) :
    (∃ message, o.fitPorts checks = .error (.exit message)) ∨
      (o.startPort = 0 ∧ o.endPort = 65535 ∧ o.fitPorts checks = .error .overflowed) ∨
      (o.startPort.toNat + 2 ≤ o.endPort.toNat ∧ o.endPort.toNat - o.startPort.toNat + 1 < 2 ^ 16 ∧
        ∃ fitted, o.fitPorts checks = .ok fitted ∧ o.Fitted fitted) := by
  have endBound := o.endPort.toNat_lt
  by_cases ordered : o.startPort ≤ o.endPort
  · by_cases full : o.startPort = 0 ∧ o.endPort = 65535
    · -- all 65536 ports: their number is no `u16`
      obtain ⟨first, last⟩ := full
      unfold fitPorts
      rw [first, last]
      cases checks with
      | false => exact .inl ⟨_, rfl⟩
      | true => exact .inr (.inl ⟨rfl, rfl, rfl⟩)
    · have few : o.endPort.toNat - o.startPort.toNat + 1 < 2 ^ 16 := by
        rw [← UInt16.toNat_inj, ← UInt16.toNat_inj] at full
        simp only [UInt16.toNat_ofNat] at full
        omega
      by_cases enough : o.startPort.toNat + 2 ≤ o.endPort.toNat
      · exact .inr (.inr ⟨enough, few, fitPorts_enough ordered few enough⟩)
      · have less : o.endPort - o.startPort + 1 < 3 := by
          rw [UInt16.lt_iff_toNat_lt, toNat_portCount ordered few]
          change _ < 3
          omega
        rw [fitPorts, if_neg (UInt16.not_lt.mpr ordered), subU16_eq ordered]
        simp only [bind, Except.bind]
        rw [addU16_eq (addsOne ordered few)]
        dsimp only
        rw [if_pos less]
        exact .inl ⟨_, rfl⟩
  · unfold fitPorts
    rw [if_pos (UInt16.not_le.mp ordered)]
    exact .inl ⟨_, rfl⟩

theorem takePort_eq (below : o.startPort.toNat + 1 < 2 ^ 16) :
    o.takePort checks = .ok { o with startPort := o.startPort + 1 } ∧
      (o.startPort + 1).toNat = o.startPort.toNat + 1 := by
  refine ⟨?_, toNat_add_of_fits below⟩
  rw [takePort, addU16_eq below]
  rfl

theorem length_socketPorts (o : Options) :
    o.socketPorts.length = o.endPort.toNat + 1 - o.startPort.toNat := by
  rw [socketPorts, List.length_map, List.length_range']

/-- The sockets that are opened after two streams. -/
theorem opened_iff (few : o.startPort.toNat + 2 < 2 ^ 16) :
    (∃ first opened, o.takePort checks = .ok first ∧ first.takePort checks = .ok opened ∧
        opened.socketPorts.length = opened.threads.toNat ∧ opened.socketPorts ≠ []) ↔
      o.endPort.toNat - o.startPort.toNat - 1 = o.threads.toNat ∧ 0 < o.threads.toNat := by
  obtain ⟨took, first⟩ := @takePort_eq checks o (by omega)
  obtain ⟨took', second⟩ := @takePort_eq checks { o with startPort := o.startPort + 1 }
    (by change (o.startPort + 1).toNat + 1 < _; omega)
  have sockets : ∀ opened : Options, opened.socketPorts ≠ [] ↔ 0 < opened.socketPorts.length :=
    fun opened => List.length_pos_iff.symm
  constructor
  · intro holds
    obtain ⟨_, opened, one, two, all, some_⟩ := holds
    cases took.symm.trans one
    cases took'.symm.trans two
    rw [sockets] at some_
    rw [length_socketPorts] at all some_
    change o.endPort.toNat + 1 - (o.startPort + 1 + 1).toNat = o.threads.toNat at all
    change 0 < o.endPort.toNat + 1 - (o.startPort + 1 + 1).toNat at some_
    change (o.startPort + 1 + 1).toNat = (o.startPort + 1).toNat + 1 at second
    omega
  · intro holds
    obtain ⟨all, some_⟩ := holds
    refine ⟨_, _, took, took', ?_, ?_⟩
    · rw [length_socketPorts]
      change o.endPort.toNat + 1 - (o.startPort + 1 + 1).toNat = o.threads.toNat
      change (o.startPort + 1 + 1).toNat = (o.startPort + 1).toNat + 1 at second
      omega
    · rw [sockets, length_socketPorts]
      change 0 < o.endPort.toNat + 1 - (o.startPort + 1 + 1).toNat
      change (o.startPort + 1 + 1).toNat = (o.startPort + 1).toNat + 1 at second
      omega

/-- Unless the locations are refused, what fits is what `main` goes on with. -/
theorem validate_of_fitPorts {fitted : Options} (fits : o.fitPorts checks = .ok fitted)
    (runs : ∀ message, o.validate checks ≠ .error (.exit message)) :
    ∃ mode, o.validate checks = .ok (mode, fitted) := by
  rw [validate, fits] at runs ⊢
  simp only [bind, Except.bind] at runs ⊢
  split at runs
  next => exact absurd rfl (runs _)
  next remote =>
    rw [if_neg remote]
    split
    next => exact ⟨_, rfl⟩
    next => exact ⟨_, rfl⟩

/-- What `main` goes on with is one thing. -/
theorem portsFit_iff_of_validate {mode : Mode} {fitted : Options}
    (validated : o.validate checks = .ok (mode, fitted)) :
    o.PortsFit checks ↔ (o.startPort ≤ fitted.startPort ∧ fitted.startPort ≤ fitted.endPort ∧
        fitted.endPort ≤ o.endPort) ∧
      ∃ first opened, fitted.takePort checks = .ok first ∧ first.takePort checks = .ok opened ∧
        opened.socketPorts.length = opened.threads.toNat ∧ opened.socketPorts ≠ [] := by
  constructor
  · intro holds
    obtain ⟨mode', fitted', first, opened, same, above, ordered, below, rest⟩ := holds
    cases validated.symm.trans same
    exact ⟨⟨above, ordered, below⟩, first, opened, rest⟩
  · intro holds
    obtain ⟨⟨above, ordered, below⟩, first, opened, rest⟩ := holds
    exact ⟨mode, fitted, first, opened, validated, above, ordered, below, rest⟩

/-- **One socket for each thread.**  For every range of ports and number of threads that the
validation does not refuse, what it leaves fits if and only if the range is not that of all
ports and there are more threads, modulo 2^16, than ports for data, or the number of threads
is positive and fits a `u16`. -/
theorem ports_fit_iff (runs : ∀ message, o.validate checks ≠ .error (.exit message)) :
    o.PortsFit checks ↔ ¬ (o.startPort = 0 ∧ o.endPort = 65535) ∧
      (o.endPort.toNat - o.startPort.toNat - 1 < o.threads.toNat % 2 ^ 16 ∨
        0 < o.threads.toNat ∧ o.threads.toNat < 2 ^ 16) := by
  have endBound := o.endPort.toNat_lt
  rcases fitPorts_cases checks o with ⟨message, refused⟩ | ⟨first, last, overflows⟩ |
    ⟨enough, few, fitted, fits, fitting⟩
  · refine absurd ?_ (runs message)
    rw [validate, refused]
    rfl
  · constructor
    · intro holds
      obtain ⟨mode, fitted, _, _, validated, -⟩ := holds
      rw [validate, overflows] at validated
      cases validated
    · exact fun holds => absurd ⟨first, last⟩ holds.1
  · have partial_ : ¬ (o.startPort = 0 ∧ o.endPort = 65535) := by
      intro holds
      obtain ⟨first, last⟩ := holds
      rw [first, last] at few
      exact absurd few (by decide)
    obtain ⟨mode, validated⟩ := validate_of_fitPorts fits runs
    rw [portsFit_iff_of_validate validated, and_iff_right partial_]
    clear validated
    simp only [UInt16.le_iff_toNat_le]
    cases fitting with
    | fewer less threads all =>
        rw [opened_iff (by dsimp only; omega)]
        dsimp only
        omega
    | more less newEnd some_ =>
        rw [opened_iff (by dsimp only; omega)]
        dsimp only
        omega
    | same equal =>
        rw [opened_iff (by omega)]
        omega

/-- The default ports with another number of threads, for a destination elsewhere. -/
def defaultPorts (threads : UInt64) : Options :=
  { substitution with
    threads := threads
    destination := ⟨"a".toList, some (.v4 ⟨192, 0, 2, 1⟩ 22), "u".toList⟩ }

theorem defaultPorts_runs {message : List Char} :
    (defaultPorts 8).validate true ≠ .error (.exit message) := by
  rw [show (defaultPorts 8).validate true = .ok (.local, defaultPorts 8) from rfl]
  intro holds
  cases holds

/-- The defaults are eight sockets for eight threads. -/
theorem ports_fit_iff_defaults : (defaultPorts 8).PortsFit true :=
  (ports_fit_iff fun _ => defaultPorts_runs).mpr ⟨by decide, by decide⟩

/-- Without threads, the ports are given up: no socket is opened. -/
theorem no_threads_no_sockets : ∃ fitted first opened : Options,
    (defaultPorts 0).validate true = .ok (.local, fitted) ∧
      fitted.takePort true = .ok first ∧ first.takePort true = .ok opened ∧
      opened.socketPorts = [] ∧ ¬ (defaultPorts 0).PortsFit true := by
  refine ⟨_, _, _, rfl, rfl, rfl, rfl, ?_⟩
  intro holds
  obtain ⟨_, _, _, _, validated, -, -, -, took, took', -, some_⟩ := holds
  cases validated
  cases took
  cases took'
  exact some_ rfl

end Options

end Cccp
