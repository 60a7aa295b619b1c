import Cccp.Lib.Machine
import Cccp.Receiver.Directories

/-!
# The two controllers

The control part of a transfer as one machine: `sender::main` and
`sender::controller`, `receiver::main` and `receiver::controller`, the writer tasks
the latter spawns, the control stream between the two, and the stream of `End` and
`Failure` messages back to the sender.

A step is one awaited operation of one of them.  The control stream is a parameter,
`Transport`: `fifo` delivers packets as they were written, and
`Cccp.Control.Wire` delivers what comes out of the encrypted bytes.

Either side may end at any step (a cancel signal, a lost connection, an error in
one of its other tasks); from then on it does nothing.
-/

namespace Cccp

namespace Control

/-! ## The control stream -/

/-- What is written to the control stream. -/
inductive Packet where
  | message (message : Message)
  | startIndex (index : UInt64)

/-- The type a reader asks `read_message` for. -/
inductive Expected where
  | message
  | startIndex
  deriving DecidableEq

inductive Side where
  | sender
  | receiver
  deriving DecidableEq

/-- A control stream.  `read side` yields nothing while `side` has nothing to read, and
`none` for a packet where what it reads does not decode. -/
structure Transport (χ : Type) where
  write : Side → Packet → χ → χ
  read : Side → Expected → χ → Option (Option Packet × χ)

/-- The packets in flight in each direction. -/
structure Fifo where
  toReceiver : List Packet
  toSender : List Packet

def Packet.hasType : Packet → Expected → Bool
  | message _, .message => true
  | startIndex _, .startIndex => true
  | _, _ => false

/-- A packet as its reader takes it in. -/
def Packet.readAs (packet : Packet) (expected : Expected) : Option Packet :=
  if packet.hasType expected then some packet else none

/-- The stream that delivers packets in order. -/
def fifo : Transport Fifo where
  write side packet chan :=
    match side with
    | .sender => { chan with toReceiver := chan.toReceiver ++ [packet] }
    | .receiver => { chan with toSender := chan.toSender ++ [packet] }
  read side expected chan :=
    match side with
    | .sender =>
        match chan.toSender with
        | [] => none
        | packet :: rest => some (packet.readAs expected, { chan with toSender := rest })
    | .receiver =>
        match chan.toReceiver with
        | [] => none
        | packet :: rest => some (packet.readAs expected, { chan with toReceiver := rest })

/-! ## States -/

structure Config where
  /-- what `build_manifest` made at the sender -/
  manifest : Manifest
  /-- `options.max`, the number of concurrent transfers -/
  max : Nat
  /-- the receiver's options -/
  options : ReceiverOptions
  /-- what the receiver's file system reports as the length of a directory -/
  dirLen : Path → UInt64
  force : Bool
  crates : Crates

/-- The next operation of the sender.  In `starting` and `retrying` it waits for the
reply to its `Start` message. -/
inductive SenderPc where
  | building
  | awaitingCompleted
  | allCompleted
  | filling
  | starting (id : UInt32) (details : FileDetail)
  | waiting
  | retrying (id : UInt32) (details : FileDetail)
  | finishing
  | returned

structure Sender where
  pc : SenderPc
  files : HashMap UInt32 FileDetail
  active : HashMap UInt32 FileDetail
  nextId : UInt32
  /-- the ids the receiver declared completed -/
  completed : List UInt32
  /-- the readers spawned so far, each with its start index -/
  readers : List (UInt32 × UInt64)
  alive : Bool

/-- The next operation of the receiver's controller. -/
inductive ReceiverPc where
  | awaitingManifest
  | preparing (manifest : Manifest)
  | settingUp (manifest : Manifest)
  | waiting
  | replying (details : FileDetails)
  | pushing (details : FileDetails)
  | spawning (details : FileDetails)
  | returned

structure Receiver where
  pc : ReceiverPc
  files : HashMap UInt32 FileDetails
  alive : Bool

structure State (χ : Type) where
  sender : Sender
  receiver : Receiver
  shared : Shared
  tasks : List WriterTask
  chan : χ

inductive Action where
  | sender
  | senderExit
  /-- `space`: the receiver's disk has enough free space -/
  | receiver (space : Bool)
  | receiverExit
  | task (index : Nat) (action : TaskAction)

/-! ## The sender -/

namespace Sender

def goto (sender : Sender) (pc : SenderPc) : Sender :=
  { sender with pc := pc }

/-- The sender returns an error. -/
def stop (sender : Sender) : Sender :=
  { sender with pc := .returned, alive := false }

/-- Nothing is left to start and nothing is running. -/
def done (sender : Sender) : Bool :=
  sender.files.entries.isEmpty && sender.active.entries.isEmpty

/-- The end of the controller's loop body. -/
def afterMessage (sender : Sender) : Sender :=
  sender.goto (if sender.done then .finishing else .filling)

/-- The ids the receiver already has are taken out of the manifest. -/
def complete (sender : Sender) (ids : List UInt32) : Sender :=
  let files := ids.foldl (fun files id => files.erase id) sender.files
  { sender with
    files := files
    completed := ids
    pc := if files.entries.isEmpty then .allCompleted else .filling }

/-- The rest of `start_file_transfer`, with the start index of the receiver. -/
def spawnReader (cfg : Config) (sender : Sender) (id : UInt32) (details : FileDetail)
    (index : UInt64) (next : Sender) : Sender :=
  match details.crypto.makeCipher cfg.crates.cipher with
  | .made _ => { next with readers := next.readers ++ [(id, index)] }
  | _ => sender.stop

end Sender

variable {χ : Type}

namespace State

def setSender (s : State χ) (sender : Sender) : State χ := { s with sender := sender }

def setReceiver (s : State χ) (receiver : Receiver) : State χ := { s with receiver := receiver }

def setChan (s : State χ) (chan : χ) : State χ := { s with chan := chan }

def setShared (s : State χ) (shared : Shared) : State χ := { s with shared := shared }

end State

/-- A message of the receiver's tasks reaches the sender's controller. -/
def receiveMessage (T : Transport χ) (s : State χ) (message : Message) : State χ :=
  match message with
  | .end_ id =>
      s.setSender { s.sender with active := s.sender.active.erase id }.afterMessage
  | .failure id reason description =>
      if reason = 0 then
        match s.sender.active.lookup id with
        | some details =>
            (s.setSender (s.sender.goto (.retrying id details))).setChan
              (T.write .sender (.message (.start id)) s.chan)
        | none => s.setSender s.sender.afterMessage
      else if reason = 2 then
        if id ∈ s.sender.active then
          match description with
          | some _ =>
              s.setSender { s.sender with active := s.sender.active.erase id }.afterMessage
          | none => s.setSender s.sender.stop -- `description.unwrap()`
        else s.setSender s.sender.afterMessage
      else s.setSender s.sender.afterMessage
  | _ => s.setSender s.sender.stop

def senderStep (cfg : Config) (T : Transport χ) (s : State χ) : Option (State χ) :=
  match s.sender.pc with
  | .building =>
      if cfg.manifest.isEmpty then
        some ((s.setSender (s.sender.goto .returned)).setChan
          (T.write .sender (.message (.done 0)) s.chan))
      else
        some ((s.setSender (s.sender.goto .awaitingCompleted)).setChan
          (T.write .sender (.message (.manifest cfg.manifest)) s.chan))
  | .awaitingCompleted =>
      (T.read .sender .message s.chan).map fun read =>
        (s.setChan read.2).setSender
          (match read.1 with
          | some (.message (.completed ids)) => s.sender.complete ids
          | _ => s.sender.stop)
  | .allCompleted =>
      some ((s.setSender (s.sender.goto .returned)).setChan
        (T.write .sender (.message (.done 1)) s.chan))
  | .filling =>
      if s.sender.active.entries.length < cfg.max ∧ ¬ s.sender.files.entries.isEmpty then
        match s.sender.files.lookup s.sender.nextId with
        | none => some (s.setSender { s.sender with nextId := s.sender.nextId + 1 })
        | some details =>
            let id := s.sender.nextId
            some ((s.setSender { s.sender with
                pc := .starting id details
                files := s.sender.files.erase id }).setChan
              (T.write .sender (.message (.start id)) s.chan))
      else some (s.setSender (s.sender.goto .waiting))
  | .starting id details =>
      (T.read .sender .startIndex s.chan).map fun read =>
        (s.setChan read.2).setSender
          (match read.1 with
          | some (.startIndex index) => s.sender.spawnReader cfg id details index
              { s.sender with
                pc := .filling
                active := s.sender.active.insert id details
                nextId := s.sender.nextId + 1 }
          | _ => s.sender.stop)
  | .waiting =>
      match s.shared.messages with
      | [] => none
      | message :: rest =>
          some (receiveMessage T (s.setShared { s.shared with messages := rest }) message)
  | .retrying id details =>
      (T.read .sender .startIndex s.chan).map fun read =>
        (s.setChan read.2).setSender
          (match read.1 with
          | some (.startIndex index) =>
              s.sender.spawnReader cfg id details index s.sender.afterMessage
          | _ => s.sender.stop)
  | .finishing =>
      some ((s.setSender (s.sender.goto .returned)).setChan
        (T.write .sender (.message (.done 2)) s.chan))
  | .returned => none

/-! ## The receiver -/

namespace Receiver

def goto (receiver : Receiver) (pc : ReceiverPc) : Receiver :=
  { receiver with pc := pc }

/-- The receiver returns an error. -/
def stop (receiver : Receiver) : Receiver :=
  { receiver with pc := .returned, alive := false }

end Receiver

/-- A partially transferred file that has failed is retried from the start. -/
def restarted (disk : FileSystem Path) (details : FileDetails) : FileDetails :=
  if details.startIndex > 0 ∧ disk.exists_ details.partialPath = false then
    { details with startIndex := 0 }
  else details

/-- A message of the sender reaches the receiver's controller. -/
def receiveStart (s : State χ) (packet : Option Packet) : State χ :=
  match packet with
  | some (.message (.start id)) =>
      match s.receiver.files.lookup id with
      | none => s -- an unknown id gets no reply
      | some details =>
          let details := restarted s.shared.disk details
          s.setReceiver { s.receiver with
            pc := .replying details
            files := s.receiver.files.insert id details }
  | some (.message (.done reason)) =>
      if reason = 1 ∨ reason = 2 then
        (s.setReceiver (s.receiver.goto .returned)).setShared { s.shared with closed := true }
      else s.setReceiver s.receiver.stop
  | _ => s.setReceiver s.receiver.stop

def receiverStep (cfg : Config) (T : Transport χ) (space : Bool) (s : State χ) :
    Option (State χ) :=
  match s.receiver.pc with
  | .awaitingManifest =>
      (T.read .receiver .message s.chan).map fun read =>
        (s.setChan read.2).setReceiver
          (match read.1 with
          | some (.message (.manifest manifest)) => s.receiver.goto (.preparing manifest)
          | some (.message (.done reason)) =>
              if reason = 0 then s.receiver.goto .returned else s.receiver.stop
          | _ => s.receiver.stop)
  | .preparing manifest =>
      match preparedFiles cfg.options (diskView cfg.dirLen s.shared.disk) manifest with
      | none => some (s.setReceiver s.receiver.stop)
      | some files =>
          if !cfg.force && !space then
            some ((s.setReceiver s.receiver.stop).setChan
              (T.write .receiver (.message (.failure 0 1 none)) s.chan))
          else
            let ids := completedIds cfg.options (diskView cfg.dirLen s.shared.disk) manifest
            some ((s.setReceiver { s.receiver with
                pc := .settingUp manifest
                files := fileMap files }).setChan
              (T.write .receiver (.message (.completed ids)) s.chan))
  | .settingUp manifest =>
      (createDirectories cfg.options manifest s.shared.disk).map fun disk =>
        (s.setReceiver (s.receiver.goto .waiting)).setShared (s.shared.setDisk disk)
  | .waiting =>
      (T.read .receiver .message s.chan).map fun read =>
        receiveStart (s.setChan read.2) read.1
  | .replying details =>
      some ((s.setReceiver (s.receiver.goto (.pushing details))).setChan
        (T.write .receiver (.startIndex details.startIndex) s.chan))
  | .pushing details =>
      some ((s.setReceiver (s.receiver.goto (.spawning details))).setShared
        (s.shared.pushQueue details.id))
  | .spawning details =>
      some { s with
        receiver := s.receiver.goto .waiting
        tasks := s.tasks ++ [⟨details, .opening⟩] }
  | .returned => none

/-! ## The machine -/

def taskStep (cfg : Config) (index : Nat) (action : TaskAction) (s : State χ) :
    Option (State χ) :=
  s.tasks[index]?.bind fun task =>
    (task.step cfg.crates s.shared action).map fun next =>
      { s with shared := next.1, tasks := s.tasks.set index next.2 }

def step (cfg : Config) (T : Transport χ) (s : State χ) : Action → Option (State χ)
  | .sender => if s.sender.alive then senderStep cfg T s else none
  | .senderExit => some (s.setSender { s.sender with alive := false })
  | .receiver space => if s.receiver.alive then receiverStep cfg T space s else none
  | .receiverExit => some (s.setReceiver { s.receiver with alive := false })
  | .task index action => if s.receiver.alive then taskStep cfg index action s else none

/-- Both sides at the beginning, over what the receiver's disk holds. -/
def initial (cfg : Config) (disk : FileSystem Path) (chan : χ) : State χ where
  sender :=
    { pc := .building
      files := cfg.manifest.files
      active := ∅
      nextId := 0
      completed := []
      readers := []
      alive := true }
  receiver := { pc := .awaitingManifest, files := ∅, alive := true }
  shared :=
    { disk := disk
      queues := fun _ => none
      nextQueue := 0
      messages := []
      closed := false }
  tasks := []
  chan := chan

/-- The control part of a transfer over a control stream that is `fresh` at first. -/
def machine (cfg : Config) (T : Transport χ) (fresh : χ → Prop) :
    Machine (State χ) Action where
  init s := ∃ disk chan, fresh chan ∧ s = initial cfg disk chan
  step := step cfg T

/-- The control part over the stream that delivers packets in order. -/
def ideal (cfg : Config) : Machine (State Fifo) Action :=
  machine cfg fifo fun chan => chan = ⟨[], []⟩

end Control

end Cccp
