import Cccp.Lib.Machine
import Cccp.Receiver.Task

/-!
# What a writer task reports

The task of one attempt, with a record of the messages it has sent.  `receiver::writer`
reports a wrong signature itself and then returns an error, which the wrapper around
it reports again.

`oneOutcome_of_matching` says when an attempt reports exactly one outcome: its key and iv can
be sliced, its keystream lasts, and what it hashes has the signature.
-/

namespace Cccp

/-- A task that runs, with what it has done so far. -/
structure Attempted where
  shared : Shared
  task : WriterTask
  sent : List Message
  renamed : Bool
  mismatched : Bool

namespace Attempted

inductive Event where
  | own (action : TaskAction)
  | others (after : Shared)

/-- The rename has just been done. -/
def justRenamed (before after : Phase) : Bool :=
  match before, after with
  | .moving, .ending => true
  | _, _ => false

/-- The hash has just been found to differ. -/
def justMismatched (before after : Phase) : Bool :=
  match before, after with
  | .hashing _, .notifying => true
  | _, _ => false

/-- A step of the task, recorded. -/
def record (s : Attempted) (next : Shared × WriterTask) : Attempted where
  shared := next.1
  task := next.2
  sent := s.sent ++ next.1.messages.drop s.shared.messages.length
  renamed := s.renamed || justRenamed s.task.phase next.2.phase
  mismatched := s.mismatched || justMismatched s.task.phase next.2.phase

/-- The task as the controller spawns it, beside tasks that do anything. -/
def machine (crates : Crates) (details : FileDetails) : Machine Attempted Event where
  init s := s.task = ⟨details, .opening⟩ ∧ s.sent = [] ∧ s.renamed = false ∧ s.mismatched = false
  step s
    | .own action => (s.task.step crates s.shared action).map s.record
    | .others after => some { s with shared := after }

/-- The channel of messages is open when the task uses it. -/
def Open (s : Attempted) : Event → Prop
  | .own _ => s.shared.closed = false
  | .others _ => True

/-- Moreover, what the task hashes has the signature. -/
def Matching (crates : Crates) (s : Attempted) (event : Event) : Prop :=
  Open s event ∧ (event = .own .proceed →
    ∀ signature contents, s.task.phase = .hashing signature →
      s.shared.disk.read s.task.details.partialPath = some contents →
      crates.hash contents = signature)

/-- The task has run to its end. -/
def Ended : Phase → Prop
  | .finished _ | .panicked => True
  | _ => False

instance : DecidablePred Ended := fun phase => by
  cases phase
  all_goals first | exact .isTrue trivial | exact .isFalse id

instance (phase : Phase) : Decidable (phase = .panicked) := by
  cases phase
  all_goals first | exact .isTrue rfl | exact .isFalse (by rintro ⟨⟩)

/-- Exactly one outcome is reported, and it is what happened. -/
structure OneOutcome (s : Attempted) : Prop where
  one : s.sent.length = 1
  end_ : .end_ s.task.id ∈ s.sent ↔ s.renamed = true
  mismatch : .failure s.task.id 0 none ∈ s.sent ↔ s.mismatched = true
  other : (∃ error, .failure s.task.id 2 (some error) ∈ s.sent) ↔
    s.renamed = false ∧ s.mismatched = false

/-! ## What has been sent at each operation -/

/-- What a task has done before each of its operations, while the channel is open. -/
def Done (id : UInt32) (sent : List Message) (renamed mismatched : Bool) : Phase → Prop
  | .ending => sent = [] ∧ renamed = true ∧ mismatched = false
  | .notifying => sent = [] ∧ renamed = false ∧ mismatched = true
  | .removing | .failing true _ =>
      sent = [.failure id 0 none] ∧ renamed = false ∧ mismatched = true
  | .finished .renamed => sent = [.end_ id] ∧ renamed = true ∧ mismatched = false
  | .finished (.failed false) =>
      ∃ error, sent = [.failure id 2 (some error)] ∧ renamed = false ∧ mismatched = false
  | .finished (.failed true) =>
      ∃ error, sent = [.failure id 0 none, .failure id 2 (some error)] ∧ renamed = false ∧
        mismatched = true
  | _ => sent = [] ∧ renamed = false ∧ mismatched = false

structure Inv (s : Attempted) : Prop where
  done : Done s.task.id s.sent s.renamed s.mismatched s.task.phase

variable {crates : Crates} {details : FileDetails} {s s' : Attempted}

/-- A step that sends nothing. -/
theorem record_silent (shared : Shared) (phase : Phase)
    (same : shared.messages = s.shared.messages)
    (holds : Done s.task.id s.sent (s.renamed || justRenamed s.task.phase phase)
      (s.mismatched || justMismatched s.task.phase phase) phase) :
    Inv (s.record (shared, s.task.goto phase)) := by
  refine ⟨?_⟩
  show Done _ (s.sent ++ shared.messages.drop s.shared.messages.length) _ _ _
  rw [same, List.drop_length, List.append_nil]
  exact holds

/-- A step that sends a message. -/
theorem record_send (message : Message) (phase : Phase)
    (holds : Done s.task.id (s.sent ++ [message]) (s.renamed || justRenamed s.task.phase phase)
      (s.mismatched || justMismatched s.task.phase phase) phase) :
    Inv (s.record (s.shared.send message, s.task.goto phase)) := by
  refine ⟨?_⟩
  show Done _ (s.sent ++ (s.shared.messages ++ [message]).drop s.shared.messages.length) _ _ _
  rw [List.drop_left]
  exact holds

theorem not_silent {shared : Shared} {message : Message} :
    shared ≠ shared.send message := by
  intro same
  have count := congrArg (fun shared : Shared => shared.messages.length) same
  simp [Shared.send] at count

theorem inv_own {action : TaskAction} (inv : Inv s) (open_ : s.shared.closed = false)
    {next : Shared × WriterTask} (stepped : s.task.step crates s.shared action = some next) :
    Inv (s.record next) := by
  have done := inv.done
  have move := WriterTask.step_cases stepped
  obtain ⟨shared', task'⟩ := next
  cases move with
  | opened phase _ | seeked phase _ _ | subscribed phase _ | received phase _ _ _ _
  | flushed phase _ | writeFailed phase _ _ | verified phase _ _ | removed phase _
  | unremoved phase =>
      rw [phase] at done
      obtain ⟨sent, renamed, mismatched⟩ := done
      refine record_silent _ _ rfl ?_
      rw [phase, renamed, mismatched]
      exact ⟨sent, rfl, rfl⟩
  | popped phase =>
      rw [phase] at done
      obtain ⟨sent, renamed, mismatched⟩ := done
      refine record_silent _ _ rfl ?_
      rw [phase, renamed, mismatched]
      cases s.task.details.signature <;> exact ⟨sent, rfl, rfl⟩
  | mismatched phase _ _ =>
      rw [phase] at done
      obtain ⟨sent, renamed, mismatched⟩ := done
      refine record_silent _ _ rfl ?_
      rw [phase, renamed]
      exact ⟨sent, rfl, Bool.or_true _⟩
  | notified phase _ | ended phase _ =>
      rw [phase] at done
      obtain ⟨sent, renamed, mismatched⟩ := done
      refine record_send _ _ ?_
      rw [phase, renamed, mismatched, sent]
      exact ⟨rfl, rfl, rfl⟩
  | moved phase _ =>
      rw [phase] at done
      obtain ⟨sent, renamed, mismatched⟩ := done
      refine record_silent _ _ rfl ?_
      rw [phase, mismatched]
      exact ⟨sent, Bool.or_true _, rfl⟩
  | @reported signature error phase _ =>
      rw [phase] at done
      cases signature with
      | true | false =>
          obtain ⟨sent, renamed, mismatched⟩ := done
          refine record_send _ _ ?_
          rw [phase, renamed, mismatched, sent]
          exact ⟨error, rfl, rfl, rfl⟩
  | keyPanicked phase _ | seekPanicked phase _ _ | keystreamPanicked phase _ _ _ _ _ =>
      rw [phase] at done
      obtain ⟨sent, renamed, mismatched⟩ := done
      refine record_silent _ _ rfl ?_
      rw [phase, renamed, mismatched]
      exact ⟨sent, rfl, rfl⟩
  | sendPanicked phase closed => cases open_.symm.trans closed
  | failed error phase =>
      have said : s.task.phase ≠ .notifying ∧ s.task.phase ≠ .ending := by
        constructor <;> intro here
        · obtain ⟨message, said⟩ := WriterTask.send_of_open open_ stepped (.inl here)
          exact not_silent said
        · obtain ⟨message, said⟩ := WriterTask.send_of_open open_ stepped (.inr (.inl here))
          exact not_silent said
      have quiet : (s.sent = [] ∧ s.renamed = false ∧ s.mismatched = false) ∧
          justRenamed s.task.phase (.failing false error) = false ∧
          justMismatched s.task.phase (.failing false error) = false := by
        rcases phase with phase | ⟨_, phase⟩ | ⟨_, _, phase⟩ | ⟨_, phase⟩ | phase | phase | phase
        · rw [phase] at done ⊢
          exact ⟨done, rfl, rfl⟩
        · rw [phase] at done ⊢
          exact ⟨done, rfl, rfl⟩
        · rw [phase] at done ⊢
          exact ⟨done, rfl, rfl⟩
        · rw [phase] at done ⊢
          exact ⟨done, rfl, rfl⟩
        · exact absurd phase said.1
        · rw [phase] at done ⊢
          exact ⟨done, rfl, rfl⟩
        · exact absurd phase said.2
      obtain ⟨⟨sent, renamed, mismatched⟩, notRenamed, notMismatched⟩ := quiet
      apply record_silent _ _ rfl
      rw [notRenamed, notMismatched, renamed, mismatched]
      exact ⟨sent, rfl, rfl⟩

theorem inv_reached (reached : (machine crates details).ReachableVia Open s) : Inv s := by
  refine reached.invariant ?_ ?_
  · rintro s ⟨task, sent, renamed, mismatched⟩
    refine ⟨?_⟩
    rw [task]
    exact ⟨sent, renamed, mismatched⟩
  · intro s event s' _ inv open_ next
    cases event with
    | own action =>
        obtain ⟨next, stepped, rfl⟩ := Option.map_eq_some_iff.mp next
        exact inv_own inv open_ stepped
    | others after =>
        cases next
        exact ⟨inv.done⟩

/-! ## A task that does not die -/

theorem details_reached (reached : (machine crates details).ReachableVia Open s) :
    s.task.details = details := by
  induction reached with
  | init start => rw [start.1]
  | @step s s' event before open_ next ih =>
      cases event with
      | own action =>
          obtain ⟨after, stepped, rfl⟩ := Option.map_eq_some_iff.mp next
          exact (WriterTask.step_cases stepped).details_eq.trans ih
      | others after =>
          cases next
          exact ih

theorem alive_reached (sliceable : details.crypto.Sliceable)
    (lasts : details.crypto.Lasts crates.cipher details.startIndex details.size)
    (reached : (machine crates details).ReachableVia Open s) :
    s.task.phase.Alive s.task.details.size := by
  induction reached with
  | init start =>
      rw [start.1]
      trivial
  | @step s s' event before open_ next ih =>
      cases event with
      | others after =>
          cases next
          exact ih
      | own action =>
          obtain ⟨after, stepped, rfl⟩ := Option.map_eq_some_iff.mp next
          have same := details_reached before
          exact (WriterTask.step_cases stepped).alive (same ▸ sliceable) (same ▸ lasts) ih
            fun _ _ _ => open_

/-- A key that can be sliced and a keystream that lasts: nothing panics. -/
theorem not_panicked (sliceable : details.crypto.Sliceable)
    (lasts : details.crypto.Lasts crates.cipher details.startIndex details.size)
    (reached : (machine crates details).ReachableVia Open s) : s.task.phase ≠ .panicked := by
  intro panicked
  have alive := alive_reached sliceable lasts reached
  rw [panicked] at alive
  exact alive

/-- Where all that is hashed has the signature, nothing is found to differ. -/
theorem matched_step {action : TaskAction} {next : Shared × WriterTask}
    (matching : Matching crates s (.own action)) (matched : s.mismatched = false)
    (stepped : s.task.step crates s.shared action = some next) :
    (s.record next).mismatched = false := by
  have move := WriterTask.step_cases stepped
  obtain ⟨shared', task'⟩ := next
  have quiet : justMismatched s.task.phase task'.phase = false := by
    cases move with
    | mismatched phase read differs => exact absurd (matching.2 rfl _ _ phase read) differs
    | notified phase _ | moved phase _ | ended phase _ | reported phase _ | opened phase _
    | seeked phase _ _ | subscribed phase _ | received phase _ _ _ _ | flushed phase _
    | verified phase _ _ | removed phase _ | unremoved phase | keyPanicked phase _
    | seekPanicked phase _ _ | keystreamPanicked phase _ _ _ _ _ | sendPanicked phase _
    | writeFailed phase _ _ =>
        rw [phase]
        rfl
    | popped phase =>
        rw [phase]
        cases s.task.details.signature <;> rfl
    | failed error phase =>
        rcases phase with phase | ⟨_, phase⟩ | ⟨_, _, phase⟩ | ⟨_, phase⟩ | phase | phase | phase <;>
        · rw [phase]
          rfl
  show (s.mismatched || justMismatched s.task.phase task'.phase) = false
  rw [matched, quiet]
  rfl

theorem matched_reached (reached : (machine crates details).ReachableVia (Matching crates) s) :
    s.mismatched = false := by
  induction reached with
  | init start => exact start.2.2.2
  | @step s s' event before matching next ih =>
      cases event with
      | others after =>
          cases next
          exact ih
      | own action =>
          obtain ⟨next, stepped, rfl⟩ := Option.map_eq_some_iff.mp next
          exact matched_step matching ih stepped

/-- An attempt that has ended reported exactly one outcome, and the right one, if and only if
it found no wrong signature and did not panic. -/
theorem one_iff (reached : (machine crates details).ReachableVia Open s)
    (ended : Ended s.task.phase) :
    OneOutcome s ↔ s.mismatched = false ∧ s.task.phase ≠ .panicked := by
  have done := (inv_reached reached).done
  cases phase : s.task.phase with
  | panicked =>
      rw [phase] at done
      obtain ⟨sent, -, -⟩ := done
      refine ⟨fun outcome => ?_, fun sound => absurd rfl sound.2⟩
      have one := outcome.one
      rw [sent] at one
      cases one
  | finished outcome =>
      rw [phase] at done
      cases outcome with
      | renamed =>
          obtain ⟨sent, renamed, mismatched⟩ := done
          refine ⟨fun _ => ⟨mismatched, nofun⟩, fun _ => ?_⟩
          constructor <;> simp [sent, renamed, mismatched]
      | failed signature =>
          cases signature with
          | true =>
              obtain ⟨error, sent, -, mismatched⟩ := done
              refine ⟨fun outcome => ?_, fun sound => ?_⟩
              · have one := outcome.one
                rw [sent] at one
                cases one
              · cases mismatched.symm.trans sound.1
          | false =>
              obtain ⟨error, sent, renamed, mismatched⟩ := done
              refine ⟨fun _ => ⟨mismatched, nofun⟩, fun _ => ?_⟩
              constructor <;> simp [sent, renamed, mismatched]
  | _ =>
      rw [phase] at ended
      exact ended.elim

end Attempted

/-- An empty file with a wrong signature. -/
def wronglySigned : FileDetails where
  id := 0
  path := [.normal [97]]
  partialPath := [.normal [98]]
  size := 0
  startIndex := 0
  signature := some [1]
  crypto := ⟨0, [], []⟩

/-- Its attempt on an empty disk, with a hash that is its argument. -/
def Attempted.first (details : FileDetails) : Attempted where
  shared :=
    { disk := ⟨fun _ => none, fun _ => [], 0⟩
      queues := fun _ => some 0
      nextQueue := 1
      messages := []
      closed := false }
  task := ⟨details, .opening⟩
  sent := []
  renamed := false
  mismatched := false

def plainCrates : Crates := ⟨⟨fun _ _ _ _ => 0, fun _ => none⟩, fun bytes => bytes⟩

/-- A run of the attempt on its own, each step of which passes a test. -/
theorem Attempted.reached_by (details : FileDetails) {ok : Attempted → Event → Prop}
    {each : Attempted → Event → Bool} (allowed : ∀ s event, each s event = true → ok s event)
    (actions : List TaskAction) (test : Attempted → Bool)
    (passed : ((machine plainCrates details).runVia each (first details)
      (actions.map .own)).any test = true) :
    ∃ s, (machine plainCrates details).ReachableVia ok s ∧ test s = true := by
  have start : (machine plainCrates details).init (first details) := ⟨rfl, rfl, rfl, rfl⟩
  obtain ⟨s, reached, tested⟩ := Machine.reachableVia_of_test start _ _ _ passed
  exact ⟨s, reached.mono allowed, tested⟩

/-- A step in an open channel. -/
def Attempted.opens (s : Attempted) (_ : Event) : Bool := !s.shared.closed

theorem Attempted.open_of_opens (s : Attempted) (event : Event) (opens : s.opens event = true) :
    Open s event := by
  cases event with
  | own action => simpa [Open, Attempted.opens] using opens
  | others after => trivial

/-- A step in an open channel, after which a hash that is its argument is the signature. -/
def Attempted.agrees (s : Attempted) (event : Event) : Bool :=
  s.opens event && match s.task.phase with
    | .hashing signature =>
        decide (s.shared.disk.read s.task.details.partialPath = some signature)
    | _ => true

theorem Attempted.matching_of_agrees (s : Attempted) (event : Event)
    (agrees : s.agrees event = true) : Matching plainCrates s event := by
  obtain ⟨opens, same⟩ := Bool.and_eq_true_iff.mp agrees
  refine ⟨s.open_of_opens event opens, fun _ signature contents phase read => ?_⟩
  rw [phase] at same
  have there := of_decide_eq_true same
  rw [read] at there
  exact Option.some.inj there

/-- A file of three bytes, with the right signature. -/
def signed : FileDetails where
  id := 7
  path := [.normal [97]]
  partialPath := [.normal [98]]
  size := 3
  startIndex := 0
  signature := some [1, 2, 3]
  crypto := ⟨0, [], []⟩

/-- The operations of its attempt: between the subscription and the flush it receives a
chunk that it passes on in two parts. -/
def signedActions : List TaskAction :=
  [.proceed, .proceed, .proceed, .job ⟨[1, 2, 3] ++ List.replicate 1021 0, 0⟩ 2, .proceed,
    .proceed, .proceed, .proceed, .proceed]

/-- The two failures of an attempt whose hash is wrong. -/
def toldTwice : List Message → Bool
  | [.failure id reason none, .failure id' reason' (some text)] =>
      decide (id = 0 ∧ reason = 0 ∧ id' = 0 ∧ reason' = 2 ∧ text = failureText)
  | _ => false

theorem eq_of_toldTwice {sent : List Message} (told : toldTwice sent = true) :
    sent = [.failure 0 0 none, .failure 0 2 (some failureText)] := by
  unfold toldTwice at told
  split at told
  next =>
    obtain ⟨rfl, rfl, rfl, rfl, rfl⟩ := of_decide_eq_true told
    rfl
  next => cases told

end Cccp
