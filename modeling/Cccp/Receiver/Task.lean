import Cccp.Cipher
import Cccp.Lib.FileSystem
import Cccp.Receiver.Files
import Cccp.Receiver.Writer

/-!
# The writer task of one attempt

The task `receiver::controller` spawns for a `Start` message: `receiver::writer` and
the wrapper that reports its error.  One step is one awaited operation, since other
tasks may run between any two of them; every operation may fail.

What the tasks of a receiver share is `Shared`: the disk, the queues of
`SplitQueue`, and the channel of messages to the sender.  `WriterTask.step_cases` says
once what a step can do to it.
-/

namespace Cccp

/-- Third-party code: the cipher crates, and the blake3 hash of `hash_file`. -/
structure Crates where
  cipher : CipherCrates
  hash : Bytes → Bytes

/-- What the tasks of a receiver share.  `queues` gives every id the number of the queue
`SplitQueue` holds for it. -/
structure Shared where
  disk : FileSystem Path
  queues : UInt32 → Option Nat
  nextQueue : Nat
  messages : List Message
  closed : Bool

namespace Shared

/-- `SplitQueue::push_queue`. -/
def pushQueue (shared : Shared) (id : UInt32) : Shared :=
  { shared with
    queues := fun other => if other = id then some shared.nextQueue else shared.queues other
    nextQueue := shared.nextQueue + 1 }

/-- `SplitQueue::pop_queue`. -/
def popQueue (shared : Shared) (id : UInt32) : Shared :=
  { shared with queues := fun other => if other = id then none else shared.queues other }

def send (shared : Shared) (message : Message) : Shared :=
  { shared with messages := shared.messages ++ [message] }

def setDisk (shared : Shared) (disk : FileSystem Path) : Shared :=
  { shared with disk := disk }

end Shared

inductive Outcome where
  | renamed
  | failed (signature : Bool)
  deriving DecidableEq

/-- The next operation of a writer task.  `failing` is the wrapper's report of an error,
which `signature` tells apart. -/
inductive Phase where
  | opening
  | seeking (file : Nat)
  | subscribing (file : Nat) (writer : Writer)
  | receiving (file queue : Nat) (buffered : Bytes) (writer : Writer)
  | popping
  | hashing (signature : Bytes)
  | notifying
  | removing
  | moving
  | ending
  | failing (signature : Bool) (error : Bytes)
  | finished (outcome : Outcome)
  | panicked

/-- The task has not ended. -/
def Phase.isOpen : Phase → Bool
  | .finished _ => false
  | _ => true

/-- The task lives, and its loop stays within the keystream. -/
def Phase.Alive (size : UInt64) : Phase → Prop
  | .subscribing _ writer | .receiving _ _ _ writer => writer.Covered size
  | .panicked => False
  | _ => True

structure WriterTask where
  details : FileDetails
  phase : Phase

/-- How the next operation of a task goes.  `passed` is how many of the bytes it holds
the `BufWriter` passes on to the file. -/
inductive TaskAction where
  | proceed
  | fail (passed : Nat) (error : Bytes)
  | job (job : Receiver.Job) (passed : Nat)
  | jobFail (job : Receiver.Job) (passed : Nat) (error : Bytes)

/-- `ErrorKind::Failure(0)`. -/
def failureText : Bytes := "failure: 0".toUTF8.toList

/-- `ErrorKind::MissingQueue`. -/
def missingQueueText : Bytes := "missing queue".toUTF8.toList

/-- `ErrorKind::UnknownEnumValue`. -/
def unknownEnumValueText : Bytes := "unknown enum value".toUTF8.toList

namespace WriterTask

def goto (task : WriterTask) (phase : Phase) : WriterTask :=
  { task with phase := phase }

def id (task : WriterTask) : UInt32 := task.details.id

/-- The bytes a `BufWriter` holds after a round of the loop. -/
def buffer (buffered : Bytes) (before after : Writer) : Bytes :=
  buffered ++ after.output.drop before.output.length

/-- The next operation succeeds. -/
def proceed (crates : Crates) (shared : Shared) (task : WriterTask) : Option (Shared × WriterTask) :=
  match task.phase with
  | .opening =>
      (shared.disk.openAppend task.details.partialPath).map fun opened =>
        (shared.setDisk opened.2, task.goto (.seeking opened.1))
  | .seeking file =>
      match task.details.crypto.makeCipher crates.cipher with
      | .made cipher =>
          -- `seek` panics past the end of the keystream
          if cipher.past task.details.startIndex.toNat then some (shared, task.goto .panicked)
          else
            some (shared, task.goto (.subscribing file
              (Writer.start task.details.startIndex cipher)))
      | .unknownEnumValue => some (shared, task.goto (.failing false unknownEnumValueText))
      | .panicked => some (shared, task.goto .panicked)
  | .subscribing file writer =>
      match shared.queues task.id with
      | some queue => some (shared, task.goto (.receiving file queue [] writer))
      | none => some (shared, task.goto (.failing false missingQueueText))
  | .receiving file _ buffered writer =>
      -- the loop has exited and the writer is flushed
      if writer.position = task.details.size then
        some (shared.setDisk (shared.disk.append file buffered), task.goto .popping)
      else none
  | .popping =>
      some (shared.popQueue task.id,
        task.goto (match task.details.signature with
          | some signature => .hashing signature
          | none => .moving))
  | .hashing signature =>
      (shared.disk.read task.details.partialPath).map fun contents =>
        (shared, task.goto (if crates.hash contents = signature then .moving else .notifying))
  | .notifying =>
      if shared.closed then none
      else some (shared.send (.failure task.id 0 none), task.goto .removing)
  | .removing =>
      (shared.disk.remove task.details.partialPath).map fun disk =>
        (shared.setDisk disk, task.goto (.failing true failureText))
  | .moving =>
      (shared.disk.rename task.details.partialPath task.details.path).map fun disk =>
        (shared.setDisk disk, task.goto .ending)
  | .ending =>
      if shared.closed then none
      else some (shared.send (.end_ task.id), task.goto (.finished .renamed))
  | .failing signature error =>
      -- the wrapper unwraps the result of its send
      if shared.closed then some (shared, task.goto .panicked)
      else some (shared.send (.failure task.id 2 (some error)),
        task.goto (.finished (.failed signature)))
  | .finished _ => none
  | .panicked => none

/-- The next operation returns an error. -/
def fail (shared : Shared) (task : WriterTask) (passed : Nat) (error : Bytes) :
    Option (Shared × WriterTask) :=
  match task.phase with
  | .opening | .seeking _ | .hashing _ | .moving =>
      some (shared, task.goto (.failing false error))
  | .receiving file queue buffered writer =>
      -- either the flush fails or, its queue gone, the task has nothing to receive from
      if writer.position = task.details.size ∨ shared.queues task.id ≠ some queue then
        some (shared.setDisk (shared.disk.append file (buffered.take passed)),
          task.goto (.failing false error))
      else none
  | .notifying | .ending =>
      if shared.closed then some (shared, task.goto (.failing false error)) else none
  | .removing => some (shared, task.goto (.failing true error))
  | .subscribing .. | .popping | .failing .. | .finished _ | .panicked => none

/-- The task receives a job; with an `error`, one of its writes fails. -/
def receive (shared : Shared) (task : WriterTask) (job : Receiver.Job) (passed : Nat)
    (error : Option Bytes) : Option (Shared × WriterTask) :=
  match task.phase with
  | .receiving file queue buffered writer =>
      if writer.position = task.details.size then none
      else
        let writer' := writer.handle task.details.size job
        let held := buffer buffered writer writer'
        if writer'.ranOut then
          -- `apply_keystream` panics, unless a write before it fails
          let held := held.take (buffered.length + writer.lasting)
          match error with
          | none => some (shared.setDisk (shared.disk.append file (held.take passed)),
              task.goto .panicked)
          | some error =>
              if writer.lasting = 0 then none
              else some (shared.setDisk (shared.disk.append file (held.take passed)),
                task.goto (.failing false error))
        else
          some (shared.setDisk (shared.disk.append file (held.take passed)),
            task.goto (match error with
              | none => .receiving file queue (held.drop passed) writer'
              | some error => .failing false error))
  | _ => none

def step (crates : Crates) (shared : Shared) (task : WriterTask) :
    TaskAction → Option (Shared × WriterTask)
  | .proceed => task.proceed crates shared
  | .fail passed error => task.fail shared passed error
  | .job job passed => task.receive shared job passed none
  | .jobFail job passed error => task.receive shared job passed (some error)

/-- A round of the loop whose calls and writes all succeed. -/
theorem receive_receiving {shared : Shared} {details : FileDetails} {file queue : Nat}
    {buffered : Bytes} {writer : Writer} {job : Receiver.Job}
    (running : writer.position ≠ details.size)
    (lasts : (writer.handle details.size job).ranOut = false) (passed : Nat) :
    receive shared ⟨details, .receiving file queue buffered writer⟩ job passed none =
      some (shared.setDisk (shared.disk.append file
          ((buffer buffered writer (writer.handle details.size job)).take passed)),
        ⟨details, .receiving file queue
          ((buffer buffered writer (writer.handle details.size job)).drop passed)
          (writer.handle details.size job)⟩) := by
  simp only [receive, if_neg running, lasts, Bool.false_eq_true, if_false]
  rfl

/-- However much of it is passed on, a round of the loop leaves file and buffer with what
was there and the output. -/
theorem passed_received {before buffered base : Bytes} {writer : Writer}
    (held : before ++ buffered = base ++ writer.output) (size : UInt64) (job : Receiver.Job)
    (passed : Nat) :
    before ++ (buffer buffered writer (writer.handle size job)).take passed ++
        (buffer buffered writer (writer.handle size job)).drop passed =
      base ++ (writer.handle size job).output := by
  obtain ⟨more, output⟩ := Writer.output_handle size writer job
  have written : buffer buffered writer (writer.handle size job) = buffered ++ more := by
    rw [buffer, ← output, List.drop_left]
  rw [written, List.append_assoc, List.take_append_drop, ← List.append_assoc, held,
    List.append_assoc, output]

/-! ## What a step can do -/

/-- The steps of a writer task. -/
inductive Move (crates : Crates) (shared : Shared) (task : WriterTask) :
    TaskAction → Shared → WriterTask → Prop
  | opened {file : Nat} {disk : FileSystem Path} (phase : task.phase = .opening)
      (opened : shared.disk.openAppend task.details.partialPath = some (file, disk)) :
      Move crates shared task .proceed (shared.setDisk disk) (task.goto (.seeking file))
  | seeked {file : Nat} {cipher : StreamCipher} (phase : task.phase = .seeking file)
      (made : task.details.crypto.makeCipher crates.cipher = .made cipher)
      (lasts : cipher.past task.details.startIndex.toNat = false) :
      Move crates shared task .proceed shared
        (task.goto (.subscribing file (Writer.start task.details.startIndex cipher)))
  | subscribed {file queue : Nat} {writer : Writer}
      (phase : task.phase = .subscribing file writer)
      (registered : shared.queues task.id = some queue) :
      Move crates shared task .proceed shared (task.goto (.receiving file queue [] writer))
  | received {file queue : Nat} {buffered : Bytes} {writer : Writer}
      (phase : task.phase = .receiving file queue buffered writer)
      (running : writer.position ≠ task.details.size) (job : Receiver.Job)
      (lasts : (writer.handle task.details.size job).ranOut = false) (passed : Nat) :
      Move crates shared task (.job job passed)
        (shared.setDisk (shared.disk.append file
          ((buffer buffered writer (writer.handle task.details.size job)).take passed)))
        (task.goto (.receiving file queue
          ((buffer buffered writer (writer.handle task.details.size job)).drop passed)
          (writer.handle task.details.size job)))
  | flushed {file queue : Nat} {buffered : Bytes} {writer : Writer}
      (phase : task.phase = .receiving file queue buffered writer)
      (complete : writer.position = task.details.size) :
      Move crates shared task .proceed (shared.setDisk (shared.disk.append file buffered))
        (task.goto .popping)
  | popped (phase : task.phase = .popping) :
      Move crates shared task .proceed (shared.popQueue task.id)
        (task.goto (match task.details.signature with
          | some signature => .hashing signature
          | none => .moving))
  | verified {signature contents : Bytes} (phase : task.phase = .hashing signature)
      (read : shared.disk.read task.details.partialPath = some contents)
      (same : crates.hash contents = signature) :
      Move crates shared task .proceed shared (task.goto .moving)
  | mismatched {signature contents : Bytes} (phase : task.phase = .hashing signature)
      (read : shared.disk.read task.details.partialPath = some contents)
      (differs : crates.hash contents ≠ signature) :
      Move crates shared task .proceed shared (task.goto .notifying)
  | notified (phase : task.phase = .notifying) (open_ : shared.closed = false) :
      Move crates shared task .proceed (shared.send (.failure task.id 0 none)) (task.goto .removing)
  | removed {disk : FileSystem Path} (phase : task.phase = .removing)
      (removed : shared.disk.remove task.details.partialPath = some disk) :
      Move crates shared task .proceed (shared.setDisk disk) (task.goto (.failing true failureText))
  | unremoved {passed : Nat} {error : Bytes} (phase : task.phase = .removing) :
      Move crates shared task (.fail passed error) shared (task.goto (.failing true error))
  | moved {disk : FileSystem Path} (phase : task.phase = .moving)
      (renamed : shared.disk.rename task.details.partialPath task.details.path = some disk) :
      Move crates shared task .proceed (shared.setDisk disk) (task.goto .ending)
  | ended (phase : task.phase = .ending) (open_ : shared.closed = false) :
      Move crates shared task .proceed (shared.send (.end_ task.id)) (task.goto (.finished .renamed))
  | reported {signature : Bool} {error : Bytes} (phase : task.phase = .failing signature error)
      (open_ : shared.closed = false) :
      Move crates shared task .proceed (shared.send (.failure task.id 2 (some error)))
        (task.goto (.finished (.failed signature)))
  | keyPanicked {file : Nat} (phase : task.phase = .seeking file)
      (short : task.details.crypto.makeCipher crates.cipher = .panicked) :
      Move crates shared task .proceed shared (task.goto .panicked)
  | seekPanicked {file : Nat} {cipher : StreamCipher} (phase : task.phase = .seeking file)
      (made : task.details.crypto.makeCipher crates.cipher = .made cipher)
      (past : cipher.past task.details.startIndex.toNat = true) :
      Move crates shared task .proceed shared (task.goto .panicked)
  | keystreamPanicked {file queue : Nat} {buffered : Bytes} {writer : Writer}
      (phase : task.phase = .receiving file queue buffered writer)
      (running : writer.position ≠ task.details.size) (job : Receiver.Job)
      (past : (writer.handle task.details.size job).ranOut = true) (passed kept : Nat) :
      Move crates shared task (.job job passed)
        (shared.setDisk (shared.disk.append file
          ((buffer buffered writer (writer.handle task.details.size job)).take kept)))
        (task.goto .panicked)
  | sendPanicked {signature : Bool} {error : Bytes} (phase : task.phase = .failing signature error)
      (closed : shared.closed = true) :
      Move crates shared task .proceed shared (task.goto .panicked)
  | writeFailed {action : TaskAction} {file queue : Nat} {buffered : Bytes} {writer : Writer}
      (phase : task.phase = .receiving file queue buffered writer) (bytes error : Bytes) :
      Move crates shared task action (shared.setDisk (shared.disk.append file bytes))
        (task.goto (.failing false error))
  | failed {action : TaskAction} (error : Bytes)
      (phase : task.phase = .opening ∨ (∃ file, task.phase = .seeking file) ∨
        (∃ file writer, task.phase = .subscribing file writer) ∨
        (∃ signature, task.phase = .hashing signature) ∨ task.phase = .notifying ∨
        task.phase = .moving ∨ task.phase = .ending) :
      Move crates shared task action shared (task.goto (.failing false error))

theorem proceed_cases {crates : Crates} {shared : Shared} {task : WriterTask}
    {next : Shared × WriterTask} (stepped : task.proceed crates shared = some next) :
    Move crates shared task .proceed next.1 next.2 := by
  cases phase : task.phase with
  | opening =>
      simp only [proceed, phase] at stepped
      obtain ⟨⟨file, disk⟩, opened, rfl⟩ := Option.map_eq_some_iff.mp stepped
      exact .opened phase opened
  | seeking file =>
      simp only [proceed, phase] at stepped
      split at stepped
      next cipher made =>
        split at stepped
        next past =>
          cases stepped
          exact .seekPanicked phase made past
        next lasts =>
          cases stepped
          exact .seeked phase made (by simpa using lasts)
      next =>
        cases stepped
        exact .failed _ (.inr (.inl ⟨file, phase⟩))
      next short =>
        cases stepped
        exact .keyPanicked phase short
  | subscribing file writer =>
      simp only [proceed, phase] at stepped
      split at stepped
      next queue registered =>
        cases stepped
        exact .subscribed phase registered
      next =>
        cases stepped
        exact .failed _ (.inr (.inr (.inl ⟨file, writer, phase⟩)))
  | receiving file queue buffered writer =>
      simp only [proceed, phase] at stepped
      split at stepped
      next complete =>
        cases stepped
        exact .flushed phase complete
      next => cases stepped
  | popping =>
      simp only [proceed, phase] at stepped
      cases stepped
      exact .popped phase
  | hashing signature =>
      simp only [proceed, phase] at stepped
      obtain ⟨contents, read, rfl⟩ := Option.map_eq_some_iff.mp stepped
      split
      next same => exact .verified phase read same
      next differs => exact .mismatched phase read differs
  | notifying =>
      simp only [proceed, phase] at stepped
      split at stepped
      next => cases stepped
      next open_ =>
        cases stepped
        exact .notified phase (by simpa using open_)
  | removing =>
      simp only [proceed, phase] at stepped
      obtain ⟨disk, removed, rfl⟩ := Option.map_eq_some_iff.mp stepped
      exact .removed phase removed
  | moving =>
      simp only [proceed, phase] at stepped
      obtain ⟨disk, renamed, rfl⟩ := Option.map_eq_some_iff.mp stepped
      exact .moved phase renamed
  | ending =>
      simp only [proceed, phase] at stepped
      split at stepped
      next => cases stepped
      next open_ =>
        cases stepped
        exact .ended phase (by simpa using open_)
  | failing signature error =>
      simp only [proceed, phase] at stepped
      split at stepped
      next closed =>
        cases stepped
        exact .sendPanicked phase closed
      next open_ =>
        cases stepped
        exact .reported phase (by simpa using open_)
  | finished outcome =>
      simp only [proceed, phase] at stepped
      cases stepped
  | panicked =>
      simp only [proceed, phase] at stepped
      cases stepped

theorem fail_cases {crates : Crates} {shared : Shared} {task : WriterTask} {passed : Nat}
    {error : Bytes} {next : Shared × WriterTask}
    (stepped : task.fail shared passed error = some next) :
    Move crates shared task (.fail passed error) next.1 next.2 := by
  cases phase : task.phase with
  | opening =>
      simp only [fail, phase] at stepped
      cases stepped
      exact .failed error (.inl phase)
  | seeking file =>
      simp only [fail, phase] at stepped
      cases stepped
      exact .failed error (.inr (.inl ⟨file, phase⟩))
  | hashing signature =>
      simp only [fail, phase] at stepped
      cases stepped
      exact .failed error (.inr (.inr (.inr (.inl ⟨signature, phase⟩))))
  | moving =>
      simp only [fail, phase] at stepped
      cases stepped
      exact .failed error (.inr (.inr (.inr (.inr (.inr (.inl phase))))))
  | receiving file queue buffered writer =>
      simp only [fail, phase] at stepped
      split at stepped
      next =>
        cases stepped
        exact .writeFailed phase _ error
      next => cases stepped
  | notifying =>
      simp only [fail, phase] at stepped
      split at stepped
      next =>
        cases stepped
        exact .failed error (.inr (.inr (.inr (.inr (.inl phase)))))
      next => cases stepped
  | ending =>
      simp only [fail, phase] at stepped
      split at stepped
      next =>
        cases stepped
        exact .failed error (.inr (.inr (.inr (.inr (.inr (.inr phase))))))
      next => cases stepped
  | removing =>
      simp only [fail, phase] at stepped
      cases stepped
      exact .unremoved phase
  | _ =>
      simp only [fail, phase] at stepped
      cases stepped

theorem receive_cases {crates : Crates} {shared : Shared} {task : WriterTask}
    {job : Receiver.Job} {passed : Nat} {error : Option Bytes} {action : TaskAction}
    {next : Shared × WriterTask} (same : error = none → action = .job job passed)
    (stepped : task.receive shared job passed error = some next) :
    Move crates shared task action next.1 next.2 := by
  cases phase : task.phase with
  | receiving file queue buffered writer =>
      simp only [receive, phase] at stepped
      split at stepped
      next => cases stepped
      next running =>
        cases out : (writer.handle task.details.size job).ranOut with
        | true =>
            simp only [out, if_true, List.take_take] at stepped
            cases error with
            | none =>
                cases stepped
                rw [same rfl]
                exact .keystreamPanicked phase running job out passed _
            | some error =>
                dsimp only at stepped
                split at stepped
                next => cases stepped
                next =>
                  cases stepped
                  exact .writeFailed phase _ error
        | false =>
            simp only [out, Bool.false_eq_true, if_false] at stepped
            cases stepped
            cases error with
            | some error => exact .writeFailed phase _ error
            | none =>
                rw [same rfl]
                exact .received phase running job out passed
  | _ =>
      simp only [receive, phase] at stepped
      cases stepped

/-- Every step of a task is one of its moves. -/
theorem step_cases {crates : Crates} {shared : Shared} {task : WriterTask}
    {action : TaskAction} {next : Shared × WriterTask}
    (stepped : task.step crates shared action = some next) :
    Move crates shared task action next.1 next.2 := by
  cases action with
  | proceed => exact proceed_cases stepped
  | fail passed error => exact fail_cases stepped
  | job job passed =>
      have received : task.receive shared job passed none = some next := stepped
      exact receive_cases (fun _ => rfl) received
  | jobFail job passed error =>
      have received : task.receive shared job passed (some error) = some next := stepped
      exact receive_cases (fun absurd_ => by cases absurd_) received

/-! ## What follows from a step -/

variable {crates : Crates} {shared shared' : Shared} {task task' : WriterTask}
  {action : TaskAction}

theorem Move.details_eq (move : task.Move crates shared action shared' task') :
    task'.details = task.details := by
  cases move <;> rfl

/-- Where the cipher can be made and lasts, a task dies only of a closed channel. -/
theorem Move.alive (move : task.Move crates shared action shared' task')
    (sliceable : task.details.crypto.Sliceable)
    (lasts : task.details.crypto.Lasts crates.cipher task.details.startIndex task.details.size)
    (alive : task.phase.Alive task.details.size)
    (open_ : ∀ signature error, task.phase = .failing signature error → shared.closed = false) :
    task'.phase.Alive task'.details.size := by
  cases move with
  | @seeked file cipher phase made _ => exact Writer.covered_start fun n => lasts cipher n made
  | subscribed phase _ =>
      rw [phase] at alive
      exact alive
  | received phase _ job _ _ =>
      rw [phase] at alive
      exact Writer.Covered.handle alive job
  | popped phase =>
      dsimp only [goto]
      cases task.details.signature <;> trivial
  | keyPanicked phase short => exact Crypto.makeCipher_panicked_iff.mp short sliceable
  | @seekPanicked file cipher phase made past =>
      -- the start index lies within the file, and that within the keystream
      have within : cipher.past task.details.startIndex.toNat = false :=
        StreamCipher.past_eq_false_iff.mpr fun n ends =>
          (UInt64.le_iff_toNat_le.mp (lasts cipher n made ends).1).trans
            (lasts cipher n made ends).2
      cases within.symm.trans past
  | keystreamPanicked phase _ job past _ _ =>
      rw [phase] at alive
      cases (Writer.Covered.handle alive job).ranOut_eq_false.symm.trans past
  | sendPanicked phase closed => cases (open_ _ _ phase).symm.trans closed
  | _ => trivial

/-- A task touches only the names of its own paths. -/
theorem Move.entries_eq (move : task.Move crates shared action shared' task') {path : Path}
    (apart : path ≠ task.details.partialPath) (apart' : path ≠ task.details.path) :
    shared'.disk.entries path = shared.disk.entries path := by
  cases move with
  | opened phase opened => exact FileSystem.entries_openAppend_ne opened apart
  | removed phase removed => exact FileSystem.entries_remove_ne removed apart
  | moved phase renamed => exact FileSystem.entries_rename_ne renamed apart apart'
  | _ => rfl

/-- Only `pop_queue` changes the queues. -/
theorem Move.queues_cases (move : task.Move crates shared action shared' task') :
    (task.phase = .popping ∧ shared'.queues = (shared.popQueue task.id).queues) ∨
      (task.phase ≠ .popping ∧ shared'.queues = shared.queues) := by
  have other : ∀ {phase : Phase}, task.phase = phase → phase ≠ .popping →
      shared'.queues = shared.queues →
      (task.phase = .popping ∧ shared'.queues = (shared.popQueue task.id).queues) ∨
        (task.phase ≠ .popping ∧ shared'.queues = shared.queues) := by
    rintro _ rfl differs same
    exact .inr ⟨differs, same⟩
  cases move with
  | popped phase => exact .inl ⟨phase, rfl⟩
  | keyPanicked phase _ => exact other phase nofun rfl
  | seekPanicked phase _ _ => exact other phase nofun rfl
  | keystreamPanicked phase _ _ _ _ _ => exact other phase nofun rfl
  | sendPanicked phase _ => exact other phase nofun rfl
  | failed error phase =>
      rcases phase with phase | ⟨_, phase⟩ | ⟨_, _, phase⟩ | ⟨_, phase⟩ | phase | phase | phase <;>
        exact other phase nofun rfl
  | opened phase _ => exact other phase nofun rfl
  | seeked phase _ _ => exact other phase nofun rfl
  | subscribed phase _ => exact other phase nofun rfl
  | received phase _ _ _ _ => exact other phase nofun rfl
  | flushed phase _ => exact other phase nofun rfl
  | verified phase _ _ => exact other phase nofun rfl
  | mismatched phase _ _ => exact other phase nofun rfl
  | notified phase _ => exact other phase nofun rfl
  | removed phase _ => exact other phase nofun rfl
  | unremoved phase => exact other phase nofun rfl
  | moved phase _ => exact other phase nofun rfl
  | ended phase _ => exact other phase nofun rfl
  | reported phase _ => exact other phase nofun rfl
  | writeFailed phase _ _ => exact other phase nofun rfl

/-- While the channel is open, a task that is about to send a message does so. -/
theorem send_of_open {next : Shared × WriterTask} (open_ : shared.closed = false)
    (stepped : task.step crates shared action = some next)
    (phase : task.phase = .notifying ∨ task.phase = .ending ∨
      ∃ signature error, task.phase = .failing signature error) :
    ∃ message, next.1 = shared.send message := by
  rcases phase with phase | phase | ⟨signature, error, phase⟩
  all_goals
    cases action with
    | proceed =>
        simp only [step, proceed, phase, open_] at stepped
        cases stepped
        exact ⟨_, rfl⟩
    | fail passed error =>
        simp only [step, fail, phase, open_] at stepped
        cases stepped
    | job | jobFail =>
        simp only [step, receive, phase] at stepped
        cases stepped

/-- What a task tells the sender, and when. -/
inductive Tells (shared : Shared) (task : WriterTask) : Shared → Phase → Prop
  | nothing {shared' : Shared} {phase : Phase} (same : shared'.messages = shared.messages)
      (before : Phase.isOpen task.phase = true) (after : Phase.isOpen phase = true) :
      Tells shared task shared' phase
  | mismatch (phase : task.phase = .notifying) :
      Tells shared task (shared.send (.failure task.id 0 none)) .removing
  | end_ (phase : task.phase = .ending) :
      Tells shared task (shared.send (.end_ task.id)) (.finished .renamed)
  | error {signature : Bool} {error : Bytes} (phase : task.phase = .failing signature error) :
      Tells shared task (shared.send (.failure task.id 2 (some error)))
        (.finished (.failed signature))

theorem Move.tells (move : task.Move crates shared action shared' task') :
    Tells shared task shared' task'.phase := by
  have silent : ∀ {shared' : Shared} {before after : Phase}, task.phase = before →
      shared'.messages = shared.messages → Phase.isOpen before = true →
      Phase.isOpen after = true → Tells shared task shared' after := by
    rintro _ _ _ rfl same isOpen isOpen'
    exact .nothing same isOpen isOpen'
  cases move with
  | notified phase open_ => exact .mismatch phase
  | ended phase open_ => exact .end_ phase
  | reported phase open_ => exact .error phase
  | popped phase =>
      refine silent phase rfl rfl ?_
      cases task.details.signature <;> rfl
  | keyPanicked phase _ => exact silent phase rfl rfl rfl
  | seekPanicked phase _ _ => exact silent phase rfl rfl rfl
  | keystreamPanicked phase _ _ _ _ _ => exact silent phase rfl rfl rfl
  | sendPanicked phase _ => exact silent phase rfl rfl rfl
  | failed error phase =>
      rcases phase with phase | ⟨_, phase⟩ | ⟨_, _, phase⟩ | ⟨_, phase⟩ | phase | phase | phase <;>
        exact silent phase rfl rfl rfl
  | opened phase _ => exact silent phase rfl rfl rfl
  | seeked phase _ _ => exact silent phase rfl rfl rfl
  | subscribed phase _ => exact silent phase rfl rfl rfl
  | received phase _ _ _ _ => exact silent phase rfl rfl rfl
  | flushed phase _ => exact silent phase rfl rfl rfl
  | verified phase _ _ => exact silent phase rfl rfl rfl
  | mismatched phase _ _ => exact silent phase rfl rfl rfl
  | removed phase _ => exact silent phase rfl rfl rfl
  | unremoved phase => exact silent phase rfl rfl rfl
  | moved phase _ => exact silent phase rfl rfl rfl
  | writeFailed phase _ _ => exact silent phase rfl rfl rfl

end WriterTask

end Cccp
