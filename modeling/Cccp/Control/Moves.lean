import Cccp.Control.Model

/-!
# What the controllers can do

`SenderMove` and `ReceiverMove` say once what a step of either side can do over the
ideal control stream, and `step_cases` what a step of the whole machine can do.
Every invariant of the machine is derived from these.
-/

namespace Cccp

namespace Control

/-! ## The steps of the sender -/

namespace State

variable (s : State Fifo)

/-- The sender writes a packet and goes on. -/
def senderSays (pc : SenderPc) (packet : Packet) : State Fifo :=
  (s.setSender (s.sender.goto pc)).setChan
    { s.chan with toReceiver := s.chan.toReceiver ++ [packet] }

/-- The receiver writes a packet and goes on. -/
def receiverSays (receiver : Receiver) (packet : Packet) : State Fifo :=
  (s.setReceiver receiver).setChan
    { s.chan with toSender := s.chan.toSender ++ [packet] }

def setToReceiver (packets : List Packet) : State Fifo :=
  s.setChan { s.chan with toReceiver := packets }

def setToSender (packets : List Packet) : State Fifo :=
  s.setChan { s.chan with toSender := packets }

def setMessages (messages : List Message) : State Fifo :=
  s.setShared { s.shared with messages := messages }

end State

/-- What a message that starts no retry makes of the active transfers. -/
def forget (message : Message) (active : HashMap UInt32 FileDetail) :
    HashMap UInt32 FileDetail :=
  match message with
  | .end_ id => active.erase id
  | .failure id reason _ => if reason = 2 then active.erase id else active
  | _ => active

/-- The message makes the sender start a transfer again. -/
def Retries (message : Message) (active : HashMap UInt32 FileDetail) : Prop :=
  ∃ id description, message = .failure id 0 description ∧ id ∈ active

/-- The steps of the sender. -/
inductive SenderMove (cfg : Config) (s : State Fifo) : State Fifo → Prop
  | nothing (pc : s.sender.pc = .building) (empty : cfg.manifest.isEmpty = true) :
      SenderMove cfg s (s.senderSays .returned (.message (.done 0)))
  | manifest (pc : s.sender.pc = .building) :
      SenderMove cfg s (s.senderSays .awaitingCompleted (.message (.manifest cfg.manifest)))
  | completed {ids : List UInt32} {rest : List Packet}
      (pc : s.sender.pc = .awaitingCompleted)
      (inbox : s.chan.toSender = .message (.completed ids) :: rest) :
      SenderMove cfg s ((s.setToSender rest).setSender (s.sender.complete ids))
  | allCompleted (pc : s.sender.pc = .allCompleted) :
      SenderMove cfg s (s.senderSays .returned (.message (.done 1)))
  | skip (pc : s.sender.pc = .filling) :
      SenderMove cfg s (s.setSender { s.sender with nextId := s.sender.nextId + 1 })
  | start {details : FileDetail} (pc : s.sender.pc = .filling)
      (found : s.sender.files.lookup s.sender.nextId = some details) :
      SenderMove cfg s ((s.senderSays (.starting s.sender.nextId details)
          (.message (.start s.sender.nextId))).setSender
        { s.sender with
          pc := .starting s.sender.nextId details
          files := s.sender.files.erase s.sender.nextId })
  | full (pc : s.sender.pc = .filling) :
      SenderMove cfg s (s.setSender (s.sender.goto .waiting))
  | started {id : UInt32} {details : FileDetail} {index : UInt64} {rest : List Packet}
      (pc : s.sender.pc = .starting id details)
      (inbox : s.chan.toSender = .startIndex index :: rest) :
      SenderMove cfg s ((s.setToSender rest).setSender
        { s.sender with
          pc := .filling
          active := s.sender.active.insert id details
          nextId := s.sender.nextId + 1
          readers := s.sender.readers ++ [(id, index)] })
  | told {message : Message} {rest : List Message} (pc : s.sender.pc = .waiting)
      (inbox : s.shared.messages = message :: rest)
      (settles : ¬ Retries message s.sender.active) :
      SenderMove cfg s ((s.setMessages rest).setSender
        { s.sender with active := forget message s.sender.active }.afterMessage)
  | retry {id : UInt32} {details : FileDetail} {description : Option Bytes}
      {rest : List Message} (pc : s.sender.pc = .waiting)
      (inbox : s.shared.messages = .failure id 0 description :: rest)
      (found : s.sender.active.lookup id = some details) :
      SenderMove cfg s ((s.setMessages rest).senderSays (.retrying id details)
        (.message (.start id)))
  | retried {id : UInt32} {details : FileDetail} {index : UInt64} {rest : List Packet}
      (pc : s.sender.pc = .retrying id details)
      (inbox : s.chan.toSender = .startIndex index :: rest) :
      SenderMove cfg s ((s.setToSender rest).setSender
        { s.sender.afterMessage with readers := s.sender.readers ++ [(id, index)] })
  | finish (pc : s.sender.pc = .finishing) :
      SenderMove cfg s (s.senderSays .returned (.message (.done 2)))
  | stopped {packets : List Packet} {messages : List Message}
      (waits : s.chan.toSender = packets ∧ s.sender.pc = .waiting ∨
        ∃ packet, s.chan.toSender = packet :: packets)
      (later : messages <:+ s.shared.messages) :
      SenderMove cfg s (((s.setToSender packets).setMessages messages).setSender s.sender.stop)

/-- Reading the ideal stream at the sender. -/
theorem fifo_read_sender {expected : Expected} {chan : Fifo} {read : Option Packet × Fifo}
    (taken : fifo.read .sender expected chan = some read) :
    ∃ packet rest, chan.toSender = packet :: rest ∧
      read = (packet.readAs expected, { chan with toSender := rest }) := by
  simp only [fifo] at taken
  split at taken
  next => cases taken
  next packet rest inbox => exact ⟨packet, rest, inbox, (Option.some.inj taken).symm⟩

theorem spawnReader_cases (cfg : Config) (sender : Sender) (id : UInt32)
    (details : FileDetail) (index : UInt64) (next : Sender) :
    sender.spawnReader cfg id details index next =
        { next with readers := next.readers ++ [(id, index)] } ∨
      sender.spawnReader cfg id details index next = sender.stop := by
  unfold Sender.spawnReader
  split
  next => exact .inl rfl
  next => exact .inr rfl

theorem erase_of_notMem {V : Type} {map : HashMap UInt32 V} {id : UInt32} (absent : id ∉ map) :
    map.erase id = map := by
  ext1
  exact List.kerase_of_notMem_keys absent

/-- A message that starts no retry. -/
theorem receiveMessage_cases {cfg : Config} {s : State Fifo} {message : Message}
    {rest : List Message} (pc : s.sender.pc = .waiting)
    (inbox : s.shared.messages = message :: rest) :
    SenderMove cfg s (receiveMessage fifo (s.setMessages rest) message) := by
  have settled : ∀ active, ¬ Retries message s.sender.active →
      active = forget message s.sender.active →
      SenderMove cfg s ((s.setMessages rest).setSender
        { s.sender with active := active }.afterMessage) := by
    rintro _ settles rfl
    exact .told pc inbox settles
  have stops : SenderMove cfg s ((s.setMessages rest).setSender s.sender.stop) :=
    .stopped (.inl ⟨rfl, pc⟩) ⟨[message], by rw [inbox]; rfl⟩
  cases message with
  | end_ id =>
      refine settled _ ?_ rfl
      rintro ⟨_, _, same, -⟩
      cases same
  | failure id reason description =>
      simp only [receiveMessage]
      split
      next zero =>
        subst zero
        split
        next details found => exact .retry pc inbox found
        next absent =>
          refine settled _ ?_ rfl
          rintro ⟨_, _, same, mem⟩
          cases same
          exact AList.lookup_eq_none.mp absent mem
      next notZero =>
        have settles : ¬ Retries (.failure id reason description) s.sender.active := by
          rintro ⟨_, _, same, -⟩
          cases same
          exact notZero rfl
        split
        next two =>
          split
          next mem =>
            split
            next =>
              exact settled _ settles (by rw [forget, if_pos two]; rfl)
            next => exact stops
          next absent =>
            apply settled _ settles
            rw [forget, if_pos two]
            exact (erase_of_notMem absent).symm
        next notTwo => exact settled _ settles (by rw [forget, if_neg notTwo])
  | _ => exact stops

/-- The answer to a `Start` spawns a reader, or the sender stops. -/
theorem spawnsReader_cases {cfg : Config} {s : State Fifo} {read : Option Packet × Fifo}
    {id : UInt32} {details : FileDetail} {next : Sender}
    (taken : fifo.read .sender .startIndex s.chan = some read)
    (spawned : ∀ {index : UInt64} {rest : List Packet},
      s.chan.toSender = .startIndex index :: rest →
      SenderMove cfg s ((s.setToSender rest).setSender
        { next with readers := next.readers ++ [(id, index)] })) :
    SenderMove cfg s ((s.setChan read.2).setSender
      (match read.1 with
      | some (.startIndex index) => s.sender.spawnReader cfg id details index next
      | _ => s.sender.stop)) := by
  obtain ⟨packet, rest, inbox, rfl⟩ := fifo_read_sender taken
  have stops : SenderMove cfg s ((s.setToSender rest).setSender s.sender.stop) :=
    .stopped (.inr ⟨_, inbox⟩) (List.suffix_refl _)
  cases packet with
  | message message => exact stops
  | startIndex index =>
      have answered : SenderMove cfg s ((s.setToSender rest).setSender
          (s.sender.spawnReader cfg id details index next)) := by
        rcases spawnReader_cases cfg s.sender id details index next with made | stop
        · rw [made]
          exact spawned inbox
        · rw [stop]
          exact stops
      exact answered

theorem senderStep_cases {cfg : Config} {s s' : State Fifo}
    (next : senderStep cfg fifo s = some s') : SenderMove cfg s s' := by
  have stops : ∀ {packet : Packet} {rest : List Packet}, s.chan.toSender = packet :: rest →
      SenderMove cfg s ((s.setToSender rest).setSender s.sender.stop) :=
    fun inbox => .stopped (.inr ⟨_, inbox⟩) (List.suffix_refl _)
  cases pc : s.sender.pc with
  | building =>
      simp only [senderStep, pc] at next
      split at next
      next empty =>
        cases next
        exact .nothing pc empty
      next =>
        cases next
        exact .manifest pc
  | awaitingCompleted =>
      simp only [senderStep, pc] at next
      obtain ⟨read, taken, rfl⟩ := Option.map_eq_some_iff.mp next
      obtain ⟨packet, rest, inbox, rfl⟩ := fifo_read_sender taken
      split
      next ids same =>
        cases packet with
        | startIndex index => cases same
        | message message =>
            cases same
            exact .completed pc inbox
      next => exact stops inbox
  | allCompleted =>
      simp only [senderStep, pc] at next
      cases next
      exact .allCompleted pc
  | filling =>
      simp only [senderStep, pc] at next
      split at next
      next =>
        split at next
        next =>
          cases next
          rw [← pc]
          exact .skip pc
        next details found =>
          cases next
          exact .start pc found
      next =>
        cases next
        exact .full pc
  | starting id details =>
      simp only [senderStep, pc] at next
      obtain ⟨read, taken, rfl⟩ := Option.map_eq_some_iff.mp next
      exact spawnsReader_cases taken (.started pc)
  | waiting =>
      simp only [senderStep, pc] at next
      split at next
      next => cases next
      next message rest inbox =>
        cases next
        exact receiveMessage_cases pc inbox
  | retrying id details =>
      simp only [senderStep, pc] at next
      obtain ⟨read, taken, rfl⟩ := Option.map_eq_some_iff.mp next
      exact spawnsReader_cases taken (.retried pc)
  | finishing =>
      simp only [senderStep, pc] at next
      cases next
      exact .finish pc
  | returned =>
      simp only [senderStep, pc] at next
      cases next

theorem SenderMove.frame {cfg : Config} {s s' : State Fifo} (move : SenderMove cfg s s') :
    s'.tasks = s.tasks ∧ s'.receiver = s.receiver ∧ s'.shared.disk = s.shared.disk := by
  cases move <;> exact ⟨rfl, rfl, rfl⟩

/-! ## The steps of the receiver -/

/-- The packets the receiver handles where it reads. -/
def Expects : ReceiverPc → Packet → Prop
  | .awaitingManifest, .message (.manifest _) => True
  | .awaitingManifest, .message (.done reason) => reason = 0
  | .waiting, .message (.start _) => True
  | .waiting, .message (.done reason) => reason = 1 ∨ reason = 2
  | _, _ => False

/-- The steps of the receiver. -/
inductive ReceiverMove (cfg : Config) (s : State Fifo) : State Fifo → Prop
  | manifest {manifest : Manifest} {rest : List Packet}
      (pc : s.receiver.pc = .awaitingManifest)
      (inbox : s.chan.toReceiver = .message (.manifest manifest) :: rest) :
      ReceiverMove cfg s
        ((s.setToReceiver rest).setReceiver (s.receiver.goto (.preparing manifest)))
  | nothing {rest : List Packet} (pc : s.receiver.pc = .awaitingManifest)
      (inbox : s.chan.toReceiver = .message (.done 0) :: rest) :
      ReceiverMove cfg s ((s.setToReceiver rest).setReceiver (s.receiver.goto .returned))
  | completed {manifest : Manifest} {files : List FileDetails}
      (pc : s.receiver.pc = .preparing manifest)
      (prepared : preparedFiles cfg.options (diskView cfg.dirLen s.shared.disk) manifest =
        some files) :
      ReceiverMove cfg s (s.receiverSays
        { s.receiver with pc := .settingUp manifest, files := fileMap files }
        (.message (.completed
          (completedIds cfg.options (diskView cfg.dirLen s.shared.disk) manifest))))
  | noSpace {manifest : Manifest} (pc : s.receiver.pc = .preparing manifest) :
      ReceiverMove cfg s (s.receiverSays s.receiver.stop (.message (.failure 0 1 none)))
  | setUp {manifest : Manifest} {disk : FileSystem Path}
      (pc : s.receiver.pc = .settingUp manifest)
      (created : createDirectories cfg.options manifest s.shared.disk = some disk) :
      ReceiverMove cfg s
        ((s.setReceiver (s.receiver.goto .waiting)).setShared (s.shared.setDisk disk))
  | start {id : UInt32} {details : FileDetails} {rest : List Packet}
      (pc : s.receiver.pc = .waiting)
      (inbox : s.chan.toReceiver = .message (.start id) :: rest)
      (known : s.receiver.files.lookup id = some details) :
      ReceiverMove cfg s ((s.setToReceiver rest).setReceiver
        { s.receiver with
          pc := .replying (restarted s.shared.disk details)
          files := s.receiver.files.insert id (restarted s.shared.disk details) })
  | unknown {id : UInt32} {rest : List Packet} (pc : s.receiver.pc = .waiting)
      (inbox : s.chan.toReceiver = .message (.start id) :: rest)
      (unknown : id ∉ s.receiver.files) :
      ReceiverMove cfg s (s.setToReceiver rest)
  | done {reason : UInt32} {rest : List Packet} (pc : s.receiver.pc = .waiting)
      (inbox : s.chan.toReceiver = .message (.done reason) :: rest)
      (last : reason = 1 ∨ reason = 2) :
      ReceiverMove cfg s (((s.setToReceiver rest).setReceiver
        (s.receiver.goto .returned)).setShared { s.shared with closed := true })
  | reply {details : FileDetails} (pc : s.receiver.pc = .replying details) :
      ReceiverMove cfg s (s.receiverSays (s.receiver.goto (.pushing details))
        (.startIndex details.startIndex))
  | push {details : FileDetails} (pc : s.receiver.pc = .pushing details) :
      ReceiverMove cfg s ((s.setReceiver (s.receiver.goto (.spawning details))).setShared
        (s.shared.pushQueue details.id))
  | spawn {details : FileDetails} (pc : s.receiver.pc = .spawning details) :
      ReceiverMove cfg s { s with
        receiver := s.receiver.goto .waiting
        tasks := s.tasks ++ [⟨details, .opening⟩] }
  | unprepared {manifest : Manifest} (pc : s.receiver.pc = .preparing manifest) :
      ReceiverMove cfg s (s.setReceiver s.receiver.stop)
  | stopped {packet : Packet} {rest : List Packet}
      (reads : s.receiver.pc = .awaitingManifest ∨ s.receiver.pc = .waiting)
      (inbox : s.chan.toReceiver = packet :: rest)
      (unexpected : ¬ Expects s.receiver.pc packet) :
      ReceiverMove cfg s ((s.setToReceiver rest).setReceiver s.receiver.stop)

/-- Reading the ideal stream at the receiver. -/
theorem fifo_read_receiver {expected : Expected} {chan : Fifo} {read : Option Packet × Fifo}
    (taken : fifo.read .receiver expected chan = some read) :
    ∃ packet rest, chan.toReceiver = packet :: rest ∧
      read = (packet.readAs expected, { chan with toReceiver := rest }) := by
  simp only [fifo] at taken
  split at taken
  next => cases taken
  next packet rest inbox => exact ⟨packet, rest, inbox, (Option.some.inj taken).symm⟩

theorem readAs_message (message : Message) :
    (Packet.message message).readAs .message = some (.message message) := rfl

theorem receiveStart_cases {cfg : Config} {s : State Fifo} {packet : Packet}
    {rest : List Packet} (pc : s.receiver.pc = .waiting)
    (inbox : s.chan.toReceiver = packet :: rest) :
    ReceiverMove cfg s (receiveStart (s.setToReceiver rest) (packet.readAs .message)) := by
  have stops : ¬ Expects .waiting packet →
      ReceiverMove cfg s ((s.setToReceiver rest).setReceiver s.receiver.stop) :=
    fun unexpected => .stopped (.inr pc) inbox (pc ▸ unexpected)
  cases packet with
  | startIndex index => exact stops (by simp [Expects])
  | message message =>
      rw [readAs_message]
      cases message with
      | start id =>
          simp only [receiveStart]
          split
          next absent => exact .unknown pc inbox (AList.lookup_eq_none.mp absent)
          next details known => exact .start pc inbox known
      | done reason =>
          simp only [receiveStart]
          split
          next last => exact .done pc inbox last
          next other => exact stops other
      | _ => exact stops (by simp [Expects])

theorem awaitManifest_cases {cfg : Config} {s : State Fifo} {packet : Packet}
    {rest : List Packet} (pc : s.receiver.pc = .awaitingManifest)
    (inbox : s.chan.toReceiver = packet :: rest) :
    ReceiverMove cfg s ((s.setToReceiver rest).setReceiver
      (match packet.readAs .message with
      | some (.message (.manifest manifest)) => s.receiver.goto (.preparing manifest)
      | some (.message (.done reason)) =>
          if reason = 0 then s.receiver.goto .returned else s.receiver.stop
      | _ => s.receiver.stop)) := by
  have stops : ¬ Expects .awaitingManifest packet →
      ReceiverMove cfg s ((s.setToReceiver rest).setReceiver s.receiver.stop) :=
    fun unexpected => .stopped (.inl pc) inbox (pc ▸ unexpected)
  cases packet with
  | startIndex index => exact stops (by simp [Expects])
  | message message =>
      rw [readAs_message]
      cases message with
      | manifest manifest => exact .manifest pc inbox
      | done reason =>
          dsimp only
          split
          next zero =>
            subst zero
            exact .nothing pc inbox
          next other => exact stops other
      | _ => exact stops (by simp [Expects])

theorem receiverStep_cases {cfg : Config} {s s' : State Fifo} {space : Bool}
    (next : receiverStep cfg fifo space s = some s') : ReceiverMove cfg s s' := by
  cases pc : s.receiver.pc with
  | awaitingManifest =>
      simp only [receiverStep, pc] at next
      obtain ⟨read, taken, rfl⟩ := Option.map_eq_some_iff.mp next
      obtain ⟨packet, rest, inbox, rfl⟩ := fifo_read_receiver taken
      exact awaitManifest_cases pc inbox
  | preparing manifest =>
      simp only [receiverStep, pc] at next
      split at next
      next =>
        cases next
        exact .unprepared pc
      next files prepared =>
        split at next
        next =>
          cases next
          exact .noSpace pc
        next =>
          cases next
          exact .completed pc prepared
  | settingUp manifest =>
      simp only [receiverStep, pc] at next
      obtain ⟨disk, created, rfl⟩ := Option.map_eq_some_iff.mp next
      exact .setUp pc created
  | waiting =>
      simp only [receiverStep, pc] at next
      obtain ⟨read, taken, rfl⟩ := Option.map_eq_some_iff.mp next
      obtain ⟨packet, rest, inbox, rfl⟩ := fifo_read_receiver taken
      exact receiveStart_cases pc inbox
  | replying details =>
      simp only [receiverStep, pc] at next
      cases next
      exact .reply pc
  | pushing details =>
      simp only [receiverStep, pc] at next
      cases next
      exact .push pc
  | spawning details =>
      simp only [receiverStep, pc] at next
      cases next
      exact .spawn pc
  | returned =>
      simp only [receiverStep, pc] at next
      cases next

theorem ReceiverMove.sender_eq {cfg : Config} {s s' : State Fifo}
    (move : ReceiverMove cfg s s') : s'.sender = s.sender := by
  cases move <;> rfl

theorem ReceiverMove.messages_eq {cfg : Config} {s s' : State Fifo}
    (move : ReceiverMove cfg s s') : s'.shared.messages = s.shared.messages := by
  cases move <;> rfl

/-- The tasks of the receiver change only where it spawns one. -/
theorem ReceiverMove.mem_tasks {cfg : Config} {s s' : State Fifo} {task : WriterTask}
    (move : ReceiverMove cfg s s') (mem : task ∈ s'.tasks) :
    task ∈ s.tasks ∨
      ∃ details, s.receiver.pc = .spawning details ∧ task = ⟨details, .opening⟩ := by
  cases move with
  | spawn pc =>
      rcases List.mem_append.mp mem with mem | mem
      · exact .inl mem
      · exact .inr ⟨_, pc, List.mem_singleton.mp mem⟩
  | _ => exact .inl mem

/-! ## The steps of the machine -/

/-- The steps of the machine. -/
inductive Move (cfg : Config) (s : State Fifo) : Action → State Fifo → Prop
  | sender {s' : State Fifo} (alive : s.sender.alive = true) (move : SenderMove cfg s s') :
      Move cfg s .sender s'
  | senderExit : Move cfg s .senderExit (s.setSender { s.sender with alive := false })
  | receiver {space : Bool} {s' : State Fifo} (alive : s.receiver.alive = true)
      (move : ReceiverMove cfg s s') : Move cfg s (.receiver space) s'
  | receiverExit : Move cfg s .receiverExit (s.setReceiver { s.receiver with alive := false })
  | task {index : Nat} {action : TaskAction} {task task' : WriterTask} {shared' : Shared}
      (alive : s.receiver.alive = true) (here : s.tasks[index]? = some task)
      (move : task.Move cfg.crates s.shared action shared' task') :
      Move cfg s (.task index action)
        { s with shared := shared', tasks := s.tasks.set index task' }

/-- Every step is one of the moves. -/
theorem step_cases {cfg : Config} {s s' : State Fifo} {action : Action}
    (next : (ideal cfg).step s action = some s') : Move cfg s action s' := by
  have next : step cfg fifo s action = some s' := next
  cases action with
  | sender =>
      simp only [step] at next
      split at next
      next alive => exact .sender alive (senderStep_cases next)
      next => cases next
  | senderExit =>
      cases next
      exact .senderExit
  | receiver space =>
      simp only [step] at next
      split at next
      next alive => exact .receiver alive (receiverStep_cases next)
      next => cases next
  | receiverExit =>
      cases next
      exact .receiverExit
  | task index action =>
      simp only [step] at next
      split at next
      next alive =>
        obtain ⟨task, here, moved⟩ := Option.bind_eq_some_iff.mp next
        obtain ⟨after, stepped, rfl⟩ := Option.map_eq_some_iff.mp moved
        exact .task alive here (WriterTask.step_cases stepped)
      next => cases next

end Control

end Cccp
