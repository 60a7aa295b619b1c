import Cccp.Confirmations
import Cccp.Control.Conversation
import Cccp.Lib.Progress

/-!
# The stream to the sender, in bytes

`Cccp.Confirmations` takes the control stream from the receiver to the sender for a queue of
messages.  Here it is what it is made of: `send_messages` encrypts the length and the body of
a message, the bytes arrive in segments cut anywhere, and `split_receiver` reads a length and
then as many bytes.  `carries_step`: this is a queue of messages.  `reports_delivered`:
`split_receiver` never fails, the reports reach the sender's controller in the order in which
the writer tasks sent them, and those still on their way can always be brought there.
-/

namespace Cccp

namespace ReportStream

open Control (At CipherStream MessageType plaintext)

/-- The messages of `items.proto`. -/
def messageType : MessageType := .ofCodec messageCodec messageCodec_lawful

/-! ## The machine -/

/-- What `split_receiver` reads next of a message. -/
inductive ReaderPc where
  | length
  | body (len : UInt32)

/-- `tasks` has no stream of its own, and `told` only records the reports of the writers. -/
structure State where
  tasks : Confirmations.State
  told : List Message
  /-- the receiver's end -/
  writer : CipherStream
  /-- the bytes between the two ends -/
  transit : Bytes
  /-- the sender's end -/
  reader : CipherStream
  pc : ReaderPc

/-- `arrive count`: the next bytes arrive in one segment. -/
inductive Action where
  | task (action : Confirmations.Action)
  | arrive (count : Nat)

/-- `write_message` in `send_messages`. -/
def write (s : State) : Option State :=
  match s.tasks.messenger with
  | .writing message =>
      let written := s.writer.writeMessage messageType message
      some { s with
        tasks := { s.tasks with messenger := .receiving }
        writer := written.2
        transit := s.transit ++ written.1 }
  | .receiving => none

/-- `read_message` in `split_receiver`, up to the length or from there on. -/
def read (s : State) : Option State :=
  match s.tasks.splitter, s.pc with
  | .reading, .length =>
      s.reader.readU32.map fun len => { s with reader := len.2, pc := .body len.1 }
  | .reading, .body len =>
      (s.reader.readExact len.toNat).map fun buffer =>
        { s with
          reader := buffer.2
          pc := .length
          tasks := { s.tasks with
            splitter := match messageType.decode buffer.1 with
              | some message => .forwarding message
              | none => .failed } }
  | _, _ => none

def step (s : State) : Action → Option State
  | .task .write => write s
  | .task .read => read s
  | .task (.report message) =>
      (Confirmations.step s.tasks (.report message)).map fun tasks =>
        { s with tasks := tasks, told := s.told ++ [message] }
  | .task action => (Confirmations.step s.tasks action).map fun tasks => { s with tasks := tasks }
  | .arrive count =>
      if 0 < count ∧ count ≤ s.transit.length then
        some { s with
          reader := s.reader.deliver [s.transit.take count]
          transit := s.transit.drop count }
      else none

/-- Both ends at the beginning, with equal ciphers. -/
def initial (stream : CipherStream) : State where
  tasks := Confirmations.initial
  told := []
  writer := stream
  transit := []
  reader := stream
  pc := .length

def machine (crates : CipherCrates) (crypto : Crypto) : Machine State Action where
  init s := ∃ stream, CipherStream.new crates crypto = some stream ∧ s = initial stream
  step := step

/-- The length of the message fits a `u32`. -/
def Short (message : Message) : Prop := (messageCodec.encode message).length < 2 ^ 32

instance (message : Message) : Decidable (Short message) :=
  inferInstanceAs (Decidable (_ < _))

/-- What is sent is short. -/
def SendsShort (s : State) : Action → Prop
  | .task (.report message) => Short message
  | .task .sendBatch => ∀ message, s.tasks.batcher = .sending message → Short message
  | _ => True

/-! ## Messages on their way -/

/-- The message `split_receiver` has. -/
def splitting : Confirmations.SplitterPc → List Message
  | .forwarding message => [message]
  | _ => []

/-- The message `send_messages` has. -/
def writing : Confirmations.MessengerPc → List Message
  | .writing message => [message]
  | .receiving => []

/-- The messages on their way, the first to arrive first. -/
def inFlight (s : Confirmations.State) : List Message :=
  splitting s.splitter ++ (s.stream ++ (writing s.messenger ++ s.messages))

/-- The messages `split_receiver` takes. -/
def Expected (message : Message) : Prop :=
  Confirmations.isReport message = true ∨ ∃ indexes, message = .confirmations indexes

/-- The reports on their way are those that have not arrived, in order. -/
structure Orderly (told : List Message) (s : Confirmations.State) : Prop where
  told_eq : told = s.reports ++ (inFlight s).filter Confirmations.isReport
  expected : ∀ message ∈ inFlight s, Expected message ∧ Short message
  batch : ∀ message, s.batcher = .sending message → ∃ indexes, message = .confirmations indexes
  running : s.splitter ≠ .failed

variable {s s' : State} {told : List Message} {a a' : Confirmations.State}

/-! ### Steps of the tasks -/

/-- A message moves on its way. -/
theorem Orderly.moves (orderly : Orderly told a) (reports : a'.reports = a.reports)
    (same : inFlight a' = inFlight a)
    (batch : ∀ message, a'.batcher = .sending message →
      ∃ indexes, message = .confirmations indexes)
    (running : a'.splitter ≠ .failed) : Orderly told a' := by
  refine ⟨?_, ?_, batch, running⟩
  · rw [reports, same]
    exact orderly.told_eq
  · rw [same]
    exact orderly.expected

/-- A message sets out. -/
theorem Orderly.sends (orderly : Orderly told a) {message : Message} (expected : Expected message)
    (short : Short message) (reports : a'.reports = a.reports)
    (more : inFlight a' = inFlight a ++ [message])
    (batch : ∀ message, a'.batcher = .sending message →
      ∃ indexes, message = .confirmations indexes)
    (running : a'.splitter ≠ .failed) :
    Orderly (told ++ [message].filter Confirmations.isReport) a' := by
  refine ⟨?_, ?_, batch, running⟩
  · rw [reports, more, List.filter_append, ← List.append_assoc, ← orderly.told_eq]
  · rw [more]
    intro other mem
    rcases List.mem_append.mp mem with mem | mem
    · exact orderly.expected other mem
    · rw [List.mem_singleton.mp mem]
      exact ⟨expected, short⟩

theorem orderly_report (orderly : Orderly told a) {message : Message} (short : Short message)
    (next : Confirmations.step a (.report message) = some a') : Orderly (told ++ [message]) a' := by
  simp only [Confirmations.step] at next
  split at next
  next report =>
    cases next
    have sent : Orderly (told ++ [message].filter Confirmations.isReport)
        { a with messages := a.messages ++ [message] } :=
      orderly.sends (.inl report) short rfl (by simp only [inFlight, List.append_assoc])
        orderly.batch orderly.running
    rwa [List.filter_singleton, report] at sent
  next => cases next

/-- `split_receiver` takes every message it reads. -/
theorem orderly_forward (orderly : Orderly told a)
    (next : Confirmations.step a .forward = some a') : Orderly told a' := by
  have told_eq := orderly.told_eq
  have expected := orderly.expected
  unfold inFlight at told_eq expected
  simp only [Confirmations.step, Confirmations.splitReceiver] at next
  split at next
  next indexes splitter =>
    cases next
    rw [splitter] at told_eq expected
    exact ⟨told_eq, fun message mem => expected message (List.mem_cons_of_mem _ mem),
      orderly.batch, Confirmations.SplitterPc.noConfusion⟩
  next message other splitter =>
    rw [splitter] at told_eq expected
    split at next
    next report =>
      cases next
      refine ⟨?_, fun message mem => expected message (List.mem_cons_of_mem _ mem),
        orderly.batch, Confirmations.SplitterPc.noConfusion⟩
      rw [told_eq, splitting, List.singleton_append, List.filter_cons_of_pos report,
        List.append_cons]
      rfl
    next unexpected =>
      obtain ⟨report | ⟨indexes, same⟩, -⟩ := expected message List.mem_cons_self
      · exact absurd report unexpected
      · exact absurd same (other indexes)
  next => cases next

theorem orderly_step {action : Confirmations.Action} (orderly : Orderly told a)
    (short : action = .sendBatch → ∀ message, a.batcher = .sending message → Short message)
    (quiet : ∀ message, action ≠ .report message)
    (next : Confirmations.step a action = some a') : Orderly told a' := by
  cases action with
  | report message => exact absurd rfl (quiet message)
  | emit confirmation =>
      cases next
      exact orderly.moves rfl rfl orderly.batch orderly.running
  | receive =>
      simp only [Confirmations.step, Confirmations.collect] at next
      split at next
      next =>
        cases next
        exact orderly.moves rfl rfl orderly.batch orderly.running
      next => cases next
  | push =>
      simp only [Confirmations.step, Confirmations.collect] at next
      split at next
      next =>
        cases next
        exact orderly.moves rfl rfl orderly.batch orderly.running
      next => cases next
  | take =>
      simp only [Confirmations.step, Confirmations.batch] at next
      split at next
      next =>
        split at next
        next =>
          cases next
          exact orderly
        next =>
          cases next
          exact orderly.moves rfl rfl (fun _ => Confirmations.BatcherPc.noConfusion) orderly.running
      next => cases next
  | group =>
      simp only [Confirmations.step, Confirmations.batch] at next
      split at next
      next =>
        cases next
        refine orderly.moves rfl rfl ?_ orderly.running
        rintro _ ⟨⟩
        exact ⟨_, rfl⟩
      next => cases next
  | sendBatch =>
      simp only [Confirmations.step, Confirmations.batch] at next
      split at next
      next message sending =>
        cases next
        obtain ⟨indexes, same⟩ := orderly.batch message sending
        have sent : Orderly (told ++ [message].filter Confirmations.isReport)
            { a with messages := a.messages ++ [message], batcher := .ticking } :=
          orderly.sends (.inr ⟨indexes, same⟩) (short rfl message sending) rfl
            (by simp only [inFlight, List.append_assoc])
            (fun _ => Confirmations.BatcherPc.noConfusion) orderly.running
        rw [same] at sent ⊢
        exact List.append_nil told ▸ sent
      next => cases next
  | receiveMessage =>
      simp only [Confirmations.step, Confirmations.sendMessages] at next
      split at next
      next message rest messenger messages =>
        cases next
        refine orderly.moves rfl ?_ orderly.batch orderly.running
        simp only [inFlight, messenger, messages, writing, List.nil_append, List.singleton_append]
      next => cases next
  | write =>
      simp only [Confirmations.step, Confirmations.sendMessages] at next
      split at next
      next message messenger =>
        cases next
        refine orderly.moves rfl ?_ orderly.batch orderly.running
        simp only [inFlight, messenger, writing, List.nil_append, List.singleton_append,
          List.append_assoc]
      next => cases next
  | read =>
      simp only [Confirmations.step, Confirmations.splitReceiver] at next
      split at next
      next message rest splitter stream =>
        cases next
        refine orderly.moves rfl ?_ orderly.batch Confirmations.SplitterPc.noConfusion
        simp only [inFlight, splitter, stream, splitting, List.nil_append, List.cons_append]
      next => cases next
  | forward => exact orderly_forward orderly next
  | hand =>
      simp only [Confirmations.step] at next
      split at next
      next =>
        cases next
        exact orderly.moves rfl rfl orderly.batch orderly.running
      next => cases next

/-! ## The bytes on their way -/

/-- The tasks with a queue of messages for their stream. -/
def withStream (tasks : Confirmations.State) (stream : List Message) : Confirmations.State :=
  { tasks with stream := stream }

/-- The messages as they are encrypted. -/
def lines (messages : List Message) : Bytes :=
  messages.flatMap fun message => plaintext (messageCodec.encode message)

/-- What is left to be read of the messages in the queue. -/
def Left (pc : ReaderPc) (queue : List Message) (left : Bytes) : Prop :=
  match pc with
  | .length => left = lines queue
  | .body len => ∃ message rest, queue = message :: rest ∧
      len.toNat = (messageCodec.encode message).length ∧
      left = messageCodec.encode message ++ lines rest

/-- The bytes on their way are those of the messages in the queue, from where the cipher at
the sender's end is to where the one at the receiver's end is. -/
def Carries (keystream : Keystream) (s : State) (queue : List Message) : Prop :=
  ∃ plain left inbox, Left s.pc queue left ∧ At keystream (plain ++ left) [] s.writer ∧
    At keystream plain inbox s.reader ∧
      inbox ++ s.transit = keystream.xorAt plain.length left

theorem lines_concat (queue : List Message) (message : Message) :
    lines (queue ++ [message]) = lines queue ++ plaintext (messageCodec.encode message) := by
  rw [lines, List.flatMap_append, List.flatMap_singleton]
  rfl

theorem lines_cons (message : Message) (rest : List Message) :
    lines (message :: rest) = Bytes.toBE 4 (messageCodec.encode message).length ++
      (messageCodec.encode message ++ lines rest) := by
  rw [lines, List.flatMap_cons, plaintext, List.append_assoc]
  rfl

/-- What is written comes after what is on its way. -/
theorem Left.concat {pc : ReaderPc} {queue : List Message} {left : Bytes} (holds : Left pc queue left)
    (message : Message) :
    Left pc (queue ++ [message]) (left ++ plaintext (messageCodec.encode message)) := by
  cases pc with
  | length =>
      obtain rfl : left = lines queue := holds
      exact (lines_concat queue message).symm
  | body len =>
      obtain ⟨first, rest, rfl, length, rfl⟩ := holds
      refine ⟨first, rest ++ [message], rfl, length, ?_⟩
      rw [lines_concat, List.append_assoc]

variable {keystream : Keystream} {queue : List Message}

theorem Carries.write (carries : Carries keystream s queue) {message : Message}
    (short : Short message) (tasks : Confirmations.State) (told : List Message) :
    Carries keystream
      { s with
        tasks := tasks
        told := told
        writer := (s.writer.writeMessage messageType message).2
        transit := s.transit ++ (s.writer.writeMessage messageType message).1 }
      (queue ++ [message]) := by
  obtain ⟨plain, left, inbox, holds, writer, reader, bytes⟩ := carries
  obtain ⟨written, writer⟩ : (s.writer.writeMessage messageType message).1 =
        keystream.xorAt (plain ++ left).length (plaintext (messageCodec.encode message)) ∧
      At keystream ((plain ++ left) ++ plaintext (messageCodec.encode message)) [] _ :=
    writer.writeMessage short
  refine ⟨plain, _, inbox, holds.concat message, ?_, reader, ?_⟩
  · rwa [← List.append_assoc]
  · rw [← List.append_assoc, bytes, written, Keystream.xorAt_append, List.length_append]

theorem Carries.arrive (carries : Carries keystream s queue) (count : Nat) :
    Carries keystream
      { s with
        reader := s.reader.deliver [s.transit.take count]
        transit := s.transit.drop count } queue := by
  obtain ⟨plain, left, inbox, holds, writer, reader, bytes⟩ := carries
  refine ⟨plain, left, _, holds, writer, reader.deliver _, ?_⟩
  rw [List.flatten_singleton, List.append_assoc, List.take_append_drop]
  exact bytes

/-- The first bytes on their way have arrived when there are enough of them. -/
theorem arrived {inbox transit front back : Bytes} (bytes : inbox ++ transit = front ++ back)
    (enough : front.length ≤ inbox.length) :
    ∃ rest, inbox = front ++ rest ∧ rest ++ transit = back := by
  refine ⟨inbox.drop front.length, ?_, ?_⟩
  · have taken := congrArg (List.take front.length) bytes
    rw [List.take_append_of_le_length enough, List.take_left] at taken
    exact (List.take_append_drop front.length inbox).symm.trans (by rw [taken])
  · have dropped := congrArg (List.drop front.length) bytes
    rwa [List.drop_append_of_le_length enough, List.drop_left] at dropped

/-- A buffer is filled with what was encrypted, when all of it has arrived. -/
theorem Carries.readExact {plain buf left inbox : Bytes} {next : Bytes × CipherStream}
    (reader : At keystream plain inbox s.reader)
    (bytes : inbox ++ s.transit = keystream.xorAt plain.length (buf ++ left))
    (read : s.reader.readExact buf.length = some next) :
    ∃ inbox', next.1 = buf ∧ At keystream (plain ++ buf) inbox' next.2 ∧
      inbox' ++ s.transit = keystream.xorAt (plain ++ buf).length left := by
  have enough : buf.length ≤ inbox.length := by
    obtain ⟨taken, filled, -⟩ := Option.map_eq_some_iff.mp read
    have enough := Segments.enough_of_readExact filled
    rwa [reader.flatten_inbox] at enough
  rw [Keystream.xorAt_append] at bytes
  obtain ⟨rest, rfl, later⟩ := arrived bytes (by rwa [Keystream.length_xorAt])
  obtain ⟨reader', same, after⟩ := reader.readExact
  obtain rfl := Option.some.inj (read.symm.trans same)
  rw [List.length_append]
  exact ⟨rest, rfl, after, later⟩

/-- The length of the next message is read. -/
theorem Carries.readLength (carries : Carries keystream s queue) (pc : s.pc = .length)
    (short : ∀ message ∈ queue, Short message) {len : UInt32 × CipherStream}
    (read : s.reader.readU32 = some len) :
    Carries keystream { s with reader := len.2, pc := .body len.1 } queue := by
  obtain ⟨plain, left, inbox, holds, writer, reader, bytes⟩ := carries
  rw [pc] at holds
  obtain rfl : left = lines queue := holds
  obtain ⟨buf, taken, rfl⟩ := Option.map_eq_some_iff.mp read
  cases queue with
  | nil =>
      -- nothing is on its way
      obtain ⟨filled, got, -⟩ := Option.map_eq_some_iff.mp taken
      have enough := Segments.enough_of_readExact got
      have none_ := congrArg List.length bytes
      rw [reader.flatten_inbox] at enough
      rw [Keystream.length_xorAt, List.length_append] at none_
      have nothing : (lines []).length = 0 := rfl
      omega
  | cons message rest =>
      have fits : (messageCodec.encode message).length < 2 ^ 32 :=
        short message List.mem_cons_self
      rw [lines_cons] at bytes writer
      have size := Bytes.length_toBE 4 (messageCodec.encode message).length
      obtain ⟨inbox', same, after, later⟩ := Carries.readExact reader bytes (size ▸ taken)
      have value : (UInt32.ofNat (Bytes.fromBE buf.1)).toNat =
          (messageCodec.encode message).length := by
        rw [same, Bytes.fromBE_toBE_of_lt fits, UInt32.toNat_ofNat', Nat.mod_eq_of_lt fits]
      refine ⟨_, messageCodec.encode message ++ lines rest, inbox',
        ⟨message, rest, rfl, value, rfl⟩, ?_, after, later⟩
      rwa [List.append_assoc]

/-- The body of the next message is read, and decoded as it was encoded. -/
theorem Carries.readBody (carries : Carries keystream s queue) {len : UInt32}
    (pc : s.pc = .body len) (short : ∀ message ∈ queue, Short message)
    {buffer : Bytes × CipherStream} (read : s.reader.readExact len.toNat = some buffer)
    (tasks : Message → Confirmations.State) :
    ∃ message rest, queue = message :: rest ∧ messageType.decode buffer.1 = some message ∧
      Carries keystream
        { s with reader := buffer.2, pc := .length, tasks := tasks message } rest := by
  obtain ⟨plain, left, inbox, holds, writer, reader, bytes⟩ := carries
  rw [pc] at holds
  obtain ⟨message, rest, rfl, length, rfl⟩ := holds
  rw [length] at read
  obtain ⟨inbox', same, after, later⟩ := Carries.readExact reader bytes read
  refine ⟨message, rest, rfl, ?_, _, lines rest, inbox', rfl, ?_, after, later⟩
  · rw [same]
    exact messageType.decode_encode message (short message List.mem_cons_self)
  · rwa [List.append_assoc]

/-! ## Runs -/

/-- The bytes are those of a queue of messages, with which the tasks are in a state reached
over a queue, and the reports are in order. -/
structure Carried (keystream : Keystream) (s : State) (queue : List Message) : Prop where
  carries : Carries keystream s queue
  orderly : Orderly s.told (withStream s.tasks queue)
  reached : Confirmations.machine.Reachable (withStream s.tasks queue)

theorem Carried.short (carried : Carried keystream s queue) :
    ∀ message ∈ queue, Short message := by
  intro message mem
  refine (carried.orderly.expected message ?_).2
  exact List.mem_append_right _ (List.mem_append_left _ mem)

/-- The steps that neither use the stream nor bring a new report. -/
def Inner : Confirmations.Action → Prop
  | .write | .read | .report _ => False
  | _ => True

/-- A task that does not touch the stream takes the same step over a queue. -/
theorem step_withStream {tasks tasks' : Confirmations.State} {action : Confirmations.Action}
    (notWrite : action ≠ .write) (notRead : action ≠ .read)
    (next : Confirmations.step tasks action = some tasks') (queue : List Message) :
    Confirmations.step (withStream tasks queue) action = some (withStream tasks' queue) := by
  have same : Confirmations.step (withStream tasks queue) action =
      (Confirmations.step tasks action).map (withStream · queue) := by
    obtain ⟨_, confirmations, collector, _, data, batcher, messages, messenger, _, splitter, indexes,
      _, _⟩ := tasks
    cases action with
    | write => exact absurd rfl notWrite
    | read => exact absurd rfl notRead
    | emit confirmation => rfl
    | report message =>
        simp only [Confirmations.step]
        split <;> rfl
    | receive => cases collector <;> cases confirmations <;> rfl
    | push => cases collector <;> rfl
    | take =>
        cases batcher with
        | ticking => cases data <;> rfl
        | grouping confirmations => rfl
        | sending message => rfl
    | group => cases batcher <;> rfl
    | sendBatch => cases batcher <;> rfl
    | receiveMessage => cases messenger <;> cases messages <;> rfl
    | forward =>
        cases splitter with
        | reading => rfl
        | failed => rfl
        | forwarding message =>
            cases message with
            | confirmations indexes => rfl
            | _ => rfl
    | hand => cases indexes <;> rfl
  rw [same, next]
  rfl

/-- Every step is one over a queue of messages, or none. -/
theorem carries_step {action : Action} (carried : Carried keystream s queue)
    (short : SendsShort s action) (next : step s action = some s') :
    ∃ queue, Carried keystream s' queue := by
  obtain ⟨carries, orderly, reached⟩ := id carried
  have moves : ∀ (action : Confirmations.Action) {next : State} {later : List Message},
      (action = .sendBatch → ∀ message, s.tasks.batcher = .sending message → Short message) →
      (∀ message, action ≠ .report message) → Carries keystream next later → next.told = s.told →
        Confirmations.step (withStream s.tasks queue) action =
          some (withStream next.tasks later) → ∃ queue, Carried keystream next queue := by
    intro action next later short quiet carries told abstract
    refine ⟨later, carries, ?_, .step reached trivial abstract⟩
    rw [told]
    exact orderly_step orderly short quiet abstract
  -- the steps of the other tasks
  have other : ∀ action : Confirmations.Action, Inner action →
      (action = .sendBatch → ∀ message, s.tasks.batcher = .sending message → Short message) →
        ((Confirmations.step s.tasks action).map fun tasks => { s with tasks := tasks }) = some s' →
          ∃ queue, Carried keystream s' queue := by
    intro action inner short next
    obtain ⟨tasks, moved, rfl⟩ := Option.map_eq_some_iff.mp next
    have quiet : ∀ message, action ≠ .report message := by
      rintro message rfl
      exact inner
    exact moves action short quiet carries rfl
      (step_withStream (by rintro rfl; exact inner) (by rintro rfl; exact inner) moved queue)
  cases action with
  | arrive count =>
      simp only [step] at next
      split at next
      next =>
        cases next
        exact ⟨queue, carries.arrive count, orderly, reached⟩
      next => cases next
  | task action =>
      cases action with
      | write =>
          simp only [step, write] at next
          split at next
          next message messenger =>
            cases next
            have fits : Short message := by
              refine (orderly.expected message ?_).2
              simp [inFlight, withStream, messenger, writing]
            refine moves .write Confirmations.Action.noConfusion
              (fun _ => Confirmations.Action.noConfusion) (carries.write fits _ _) rfl ?_
            simp only [Confirmations.step, Confirmations.sendMessages, withStream, messenger]
          next => cases next
      | read =>
          simp only [step, read] at next
          split at next
          next splitter pc =>
            obtain ⟨len, read, rfl⟩ := Option.map_eq_some_iff.mp next
            exact ⟨queue, carries.readLength pc carried.short read, orderly, reached⟩
          next len splitter pc =>
            obtain ⟨buffer, read, rfl⟩ := Option.map_eq_some_iff.mp next
            obtain ⟨message, rest, rfl, decoded, carries⟩ :=
              carries.readBody pc carried.short read fun message =>
                { s.tasks with splitter := .forwarding message }
            rw [decoded]
            refine moves .read Confirmations.Action.noConfusion
              (fun _ => Confirmations.Action.noConfusion) carries rfl ?_
            simp only [Confirmations.step, Confirmations.splitReceiver, withStream, splitter]
          next => cases next
      | report message =>
          obtain ⟨tasks, told, rfl⟩ := Option.map_eq_some_iff.mp next
          have abstract := step_withStream Confirmations.Action.noConfusion
            Confirmations.Action.noConfusion told queue
          exact ⟨queue, carries, orderly_report orderly short abstract,
            .step (a := .report message) reached trivial abstract⟩
      | emit confirmation => exact other (.emit confirmation) trivial Confirmations.Action.noConfusion next
      | receive => exact other .receive trivial Confirmations.Action.noConfusion next
      | push => exact other .push trivial Confirmations.Action.noConfusion next
      | take => exact other .take trivial Confirmations.Action.noConfusion next
      | group => exact other .group trivial Confirmations.Action.noConfusion next
      | sendBatch => exact other .sendBatch trivial (fun _ => short) next
      | receiveMessage => exact other .receiveMessage trivial Confirmations.Action.noConfusion next
      | forward => exact other .forward trivial Confirmations.Action.noConfusion next
      | hand => exact other .hand trivial Confirmations.Action.noConfusion next

/-- Over a queue every confirmation is in one of the places on its way. -/
theorem conserved_reached {tasks : Confirmations.State}
    (reached : Confirmations.machine.Reachable tasks) :
    tasks.emitted.Perm (Confirmations.places tasks).flatten := by
  refine List.perm_iff_count.mpr ?_
  induction reached with
  | init start =>
      subst start
      exact fun _ => rfl
  | step _ _ next conserved => exact Confirmations.conserved_step conserved next

theorem carried_reached {crates : CipherCrates} {crypto : Crypto}
    (reached : (machine crates crypto).ReachableVia SendsShort s) :
    ∃ keystream queue, Carried keystream s queue := by
  induction reached with
  | init start =>
      obtain ⟨stream, new, rfl⟩ := start
      have fresh := Control.at_new new
      refine ⟨_, [], ⟨[], [], [], rfl, fresh, fresh, rfl⟩, ⟨rfl, nofun, nofun, nofun⟩, .init rfl⟩
  | step _ short next ih =>
      obtain ⟨keystream, queue, carried⟩ := ih
      obtain ⟨queue, carried⟩ := carries_step carried short next
      exact ⟨keystream, queue, carried⟩

/-! ## Bringing the messages there -/

/-- The steps of `send_messages`, of the network, and of `split_receiver`. -/
def Passes : Action → Prop
  | .arrive _ | .task .receiveMessage | .task .write | .task .read | .task .forward => True
  | .task _ => False

/-- The bytes of a message on the stream. -/
def size (message : Message) : Nat := (plaintext (messageCodec.encode message)).length

/-- A bound on the steps that the messages on their way still take. -/
def stepsLeft (s : State) : Nat :=
  (s.tasks.messages.map fun message => 2 * size message + 2).sum +
    ((writing s.tasks.messenger).map fun message => 2 * size message + 1).sum +
    2 * s.transit.length + s.reader.inbox.flatten.length +
    (match s.pc with | .length => 0 | .body _ => 3) +
    2 * (splitting s.tasks.splitter).length

/-- `split_receiver` hands on what it has. -/
theorem forward_next {message : Message} (splitter : a.splitter = .forwarding message)
    (expected : Expected message) :
    ∃ a', Confirmations.step a .forward = some a' ∧ a'.splitter = .reading ∧
      a'.messages = a.messages ∧ a'.messenger = a.messenger := by
  simp only [Confirmations.step, Confirmations.splitReceiver, splitter]
  rcases expected with report | ⟨indexes, rfl⟩
  · cases message with
    | end_ id => exact ⟨_, rfl, rfl, rfl, rfl⟩
    | failure id reason description => exact ⟨_, rfl, rfl, rfl, rfl⟩
    | _ => cases report
  · exact ⟨_, rfl, rfl, rfl, rfl⟩

/-- A buffer is filled once all bytes are there. -/
theorem Carries.fills {plain buf left : Bytes}
    (reader : At keystream plain (keystream.xorAt plain.length (buf ++ left)) s.reader) :
    ∃ next, s.reader.readExact buf.length = some (buf, next) ∧
      s.reader.inbox.flatten.length = buf.length + left.length ∧
      next.inbox.flatten.length = left.length := by
  have before := congrArg List.length reader.flatten_inbox
  rw [Keystream.length_xorAt, List.length_append] at before
  rw [Keystream.xorAt_append] at reader
  obtain ⟨next, read, after⟩ := reader.readExact
  have after := congrArg List.length after.flatten_inbox
  rw [Keystream.length_xorAt] at after
  exact ⟨next, read, before, after⟩

/-- The next length or body can be read once all bytes are there. -/
theorem Carries.read_next (carries : Carries keystream s queue) (nonempty : queue ≠ [])
    (splitter : s.tasks.splitter = .reading) (here : s.transit = []) :
    ∃ s', step s (.task .read) = some s' ∧ stepsLeft s' < stepsLeft s := by
  obtain ⟨plain, left, inbox, holds, writer, reader, bytes⟩ := carries
  rw [here, List.append_nil] at bytes
  subst bytes
  cases pc : s.pc with
  | length =>
      rw [pc] at holds
      obtain rfl : left = lines queue := holds
      obtain ⟨message, rest, rfl⟩ := List.exists_cons_of_ne_nil nonempty
      rw [lines_cons] at reader
      obtain ⟨next, read, before, after⟩ := Carries.fills reader
      rw [Bytes.length_toBE] at read before
      refine ⟨_, by
        simp only [step, ReportStream.read, splitter, pc, CipherStream.readU32, read,
          Option.map_some]
        rfl, ?_⟩
      simp only [stepsLeft, pc, before, after]
      omega
  | body len =>
      rw [pc] at holds
      obtain ⟨message, rest, rfl, length, rfl⟩ := holds
      obtain ⟨next, read, before, after⟩ := Carries.fills reader
      rw [← length] at read
      refine ⟨_, by
        simp only [step, ReportStream.read, splitter, pc, read, Option.map_some]
        rfl, ?_⟩
      have one : ∀ splitter, (splitting splitter).length ≤ 1 := by
        intro splitter
        cases splitter <;> exact Nat.le_of_ble_eq_true rfl
      have few := one (match messageType.decode (messageCodec.encode message) with
        | some message => .forwarding message
        | none => .failed)
      simp only [stepsLeft, pc, before, after]
      omega

/-- What is written for a message. -/
theorem Carries.length_written (carries : Carries keystream s queue) {message : Message}
    (short : Short message) : (s.writer.writeMessage messageType message).1.length = size message := by
  obtain ⟨plain, left, inbox, -, writer, -, -⟩ := carries
  have written : (s.writer.writeMessage messageType message).1 =
      keystream.xorAt (plain ++ left).length (plaintext (messageCodec.encode message)) :=
    (@At.writeMessage keystream _ _ _ messageType message writer short).1
  rw [written, Keystream.length_xorAt]
  rfl

theorem advance (carried : Carried keystream s queue) (behind : s.tasks.reports ≠ s.told) :
    ∃ action s', Passes action ∧ step s action = some s' ∧ stepsLeft s' < stepsLeft s := by
  obtain ⟨carries, orderly, -⟩ := id carried
  cases splitter : s.tasks.splitter with
  | failed => exact absurd splitter orderly.running
  | forwarding message =>
      have mem : message ∈ inFlight (withStream s.tasks queue) := by
        simp [inFlight, withStream, splitter, splitting]
      obtain ⟨tasks, next, reading, messages, messenger⟩ :=
        forward_next splitter (orderly.expected message mem).1
      refine ⟨.task .forward, { s with tasks := tasks }, trivial, ?_, ?_⟩
      · simp only [step, next, Option.map_some]
      · simp only [stepsLeft, reading, messages, messenger, splitter, splitting,
          List.length_cons, List.length_nil]
        omega
  | reading =>
      by_cases here : s.transit = []
      · cases messenger : s.tasks.messenger with
        | writing message =>
            have mem : message ∈ inFlight (withStream s.tasks queue) := by
              simp [inFlight, withStream, messenger, writing]
            have length := carries.length_written (orderly.expected message mem).2
            refine ⟨.task .write, _, trivial, by
              simp only [step, write, messenger]
              rfl, ?_⟩
            simp only [stepsLeft, messenger, writing, List.length_append, length, List.map_cons,
              List.map_nil, List.sum_cons, List.sum_nil]
            omega
        | receiving =>
            cases messages : s.tasks.messages with
            | cons message rest =>
                refine ⟨.task .receiveMessage, { s with tasks := { s.tasks with
                  messages := rest, messenger := .writing message } }, trivial, ?_, ?_⟩
                · simp only [step, Confirmations.step, Confirmations.sendMessages, messenger,
                    messages, Option.map_some]
                · simp only [stepsLeft, messages, messenger, writing, List.map_cons, List.sum_cons,
                    List.map_nil, List.sum_nil]
                  omega
            | nil =>
                have nonempty : queue ≠ [] := by
                  rintro rfl
                  refine behind (orderly.told_eq.trans ?_).symm
                  simp [inFlight, withStream, splitter, splitting, messenger, writing, messages]
                obtain ⟨s', next, fewer⟩ := carries.read_next nonempty splitter here
                exact ⟨.task .read, s', trivial, next, fewer⟩
      · have some_ := List.length_pos_iff.mpr here
        refine ⟨.arrive s.transit.length, _, trivial, by
          simp only [step, if_pos (And.intro some_ (Nat.le_refl _))]
          rfl, ?_⟩
        simp only [stepsLeft, CipherStream.deliver, List.take_length, List.drop_length,
          List.flatten_append, List.flatten_singleton, List.length_append, List.length_nil]
        omega

/-- Nothing is reported in these steps. -/
theorem Passes.told_eq {action : Action} (passes : Passes action) (next : step s action = some s') :
    s'.told = s.told := by
  cases action with
  | arrive count =>
      simp only [step] at next
      split at next
      next =>
        cases next
        rfl
      next => cases next
  | task action =>
      cases action with
      | write =>
          simp only [step, write] at next
          split at next
          next =>
            cases next
            rfl
          next => cases next
      | read =>
          simp only [step, read] at next
          split at next
          next =>
            obtain ⟨len, -, rfl⟩ := Option.map_eq_some_iff.mp next
            rfl
          next =>
            obtain ⟨buffer, -, rfl⟩ := Option.map_eq_some_iff.mp next
            rfl
          next => cases next
      | receiveMessage | forward =>
          obtain ⟨tasks, -, rfl⟩ := Option.map_eq_some_iff.mp next
          rfl
      | _ => cases passes

theorem Passes.sendsShort {action : Action} (passes : Passes action) (s : State) :
    SendsShort s action := by
  cases action with
  | arrive count => trivial
  | task action =>
      cases action with
      | report message => cases passes
      | sendBatch => cases passes
      | _ => trivial

/-- **Reports arrive in order.**  In every run in which what is sent is short, however the
bytes are cut: `split_receiver` does not fail, the reports at the sender's controller are a
front of those that the writer tasks have sent, every confirmation that was emitted is in one
of the places on its way, of which the messages whose bytes are on the stream are one, and some
steps of `send_messages`, of the network and of `split_receiver` bring the other reports to the
controller. -/
theorem reports_delivered {crates : CipherCrates} {crypto : Crypto}
    (reached : (machine crates crypto).ReachableVia SendsShort s) :
    s.tasks.splitter ≠ .failed ∧ s.tasks.reports <+: s.told ∧
      (∃ keystream queue, Carries keystream s queue ∧
        s.tasks.emitted.Perm (Confirmations.places (withStream s.tasks queue)).flatten) ∧
      ∃ t, (machine crates crypto).Reaches (fun _ action => Passes action) s t ∧
        t.told = s.told ∧ t.tasks.reports = s.told := by
  obtain ⟨keystream, queue, carried⟩ := carried_reached reached
  have orderly := carried.orderly
  have conserved := conserved_reached carried.reached
  refine ⟨orderly.running, ⟨_, orderly.told_eq.symm⟩,
    ⟨keystream, queue, carried.carries, conserved⟩, ?_⟩
  have advances : ∀ t : State, (∃ queue, Carried keystream t queue) ∧ t.told = s.told →
      t.tasks.reports ≠ t.told → ∃ next,
        (machine crates crypto).Reaches (fun _ action => Passes action) t next ∧
          ((∃ queue, Carried keystream next queue) ∧ next.told = s.told) ∧
            stepsLeft next < stepsLeft t := by
    rintro t ⟨⟨queue, carried⟩, told⟩ behind
    obtain ⟨action, next, passes, stepped, fewer⟩ := advance carried behind
    obtain ⟨later, carried⟩ := carries_step carried (passes.sendsShort t) stepped
    exact ⟨next, .single passes stepped, ⟨⟨later, carried⟩, (passes.told_eq stepped).trans told⟩,
      fewer⟩
  obtain ⟨t, reaches, ⟨-, told⟩, arrived⟩ :=
    Machine.reaches_goal _ stepsLeft advances ⟨⟨queue, carried⟩, rfl⟩
  exact ⟨t, reaches, told, arrived.trans told⟩

/-- A batch and a report, whose first bytes have arrived one by one. -/
def batchAndReport : List Action :=
  [.task (.emit (1, 1024)), .task .receive, .task .push, .task .take, .task .group,
    .task .sendBatch, .task (.report (.end_ 2)), .task .receiveMessage, .task .write, .arrive 1,
    .task .receiveMessage, .task .write, .arrive 3, .task .read, .arrive 1]

/-- `SendsShort`, computed. -/
def sendsShort (s : State) : Action → Bool
  | .task (.report message) => decide (Short message)
  | .task .sendBatch =>
      match s.tasks.batcher with
      | .sending message => decide (Short message)
      | _ => true
  | _ => true

theorem sendsShort_sound {action : Action} (passes : sendsShort s action = true) :
    SendsShort s action := by
  cases action with
  | arrive count => trivial
  | task action =>
      cases action with
      | report message => exact @of_decide_eq_true (Short message) _ passes
      | sendBatch =>
          intro message sending
          simp only [sendsShort, sending] at passes
          exact of_decide_eq_true passes
      | _ => trivial

/-- A keystream that starts with the numbers from 0. -/
def counting : CipherCrates := ⟨fun _ _ _ p => UInt8.ofNat p, fun _ => none⟩

def zeroKey : Crypto := ⟨1, List.replicate 32 0, List.replicate 12 0⟩

/-- The report has been told and is being read. -/
def readsReport (s : State) : Bool :=
  s.tasks.reports.isEmpty &&
    match s.told, s.pc with
    | [.end_ id], .body _ => decide (id = 2)
    | _, _ => false

/-- The report follows the batch. -/
theorem reports_delivered_batchAndReport : ∃ s t,
    (machine counting zeroKey).ReachableVia SendsShort s ∧ s.tasks.reports = [] ∧
      t.tasks.reports = [.end_ 2] ∧
      (machine counting zeroKey).Reaches (fun _ action => Passes action) s t := by
  have start : (machine counting zeroKey).init
      (initial ⟨⟨fun p => UInt8.ofNat p, 0, none⟩, [], []⟩) := ⟨_, rfl, rfl⟩
  obtain ⟨s, reached, passed⟩ := Machine.reachableVia_of_test start batchAndReport sendsShort
    readsReport (by decide +kernel)
  obtain ⟨empty, told⟩ := Bool.and_eq_true_iff.mp passed
  have reached := reached.mono fun _ _ passes => sendsShort_sound passes
  obtain ⟨-, -, -, t, reaches, -, reports⟩ := reports_delivered reached
  refine ⟨s, t, reached, List.isEmpty_iff.mp empty, ?_, reaches⟩
  rw [reports]
  split at told
  next id len same pc => rw [same, of_decide_eq_true told]
  next => cases told

end ReportStream

end Cccp
