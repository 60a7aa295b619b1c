import Cccp.Reassembly
import Cccp.Receiver.Task

/-!
# Receiving a file among others

`Target` is a file to be received: its source, and what its path had before.  `Target.Holds`
says what the disk has of it at every operation of its writer task, as long as the jobs that
reach the task carry chunks of the source.  The task keeps it (`Target.holds_move`), and so does
all that leaves its paths alone (`Target.Holds.keeps`).
-/

namespace Cccp

/-- A file to be received. -/
structure Target where
  crates : Crates
  details : FileDetails
  source : Bytes
  keystream : Keystream
  /-- what the path had before the transfer -/
  before : Option Bytes
  whole : details.size.toNat = source.length
  begins : transferBufferSize ∣ details.startIndex.toNat
  within : details.startIndex.toNat ≤ source.length
  signed : ∀ signature, details.signature = some signature → crates.hash source = signature
  keyed : ∀ cipher, details.crypto.makeCipher crates.cipher = .made cipher →
    cipher.keystream = keystream
  apart : details.partialPath ≠ details.path

namespace Target

open FileSystem (Apart Keeps)

variable (t : Target)

/-! ## What the disk has -/

/-- The path has what it had before. -/
def Old (disk : FileSystem Path) : Prop := disk.read t.details.path = t.before

/-- The path has the source. -/
def New (disk : FileSystem Path) : Prop := disk.read t.details.path = some t.source

/-- What is left over of an earlier transfer. -/
def leftover : Bytes := t.source.take t.details.startIndex.toNat

/-- The partial path has the file, with the bytes. -/
def Partial (disk : FileSystem Path) (file : Nat) (bytes : Bytes) : Prop :=
  disk.entries t.details.partialPath = some (.file file) ∧ disk.contents file = bytes

/-- The loop of the task is at `writer`. -/
def Runs (writer : Writer) : Prop :=
  writer.Running t.source t.keystream t.details.startIndex.toNat

def Holds (disk : FileSystem Path) : Phase → Prop
  | .opening => t.Old disk ∧ (disk.read t.details.partialPath).getD [] = t.leftover
  | .seeking file => t.Old disk ∧ t.Partial disk file t.leftover
  | .subscribing file writer =>
      t.Old disk ∧ t.Partial disk file t.leftover ∧ t.Runs writer ∧ writer.output = []
  | .receiving file _ buffered writer => t.Old disk ∧ t.Runs writer ∧
      ∃ passed, t.Partial disk file passed ∧ passed ++ buffered = t.leftover ++ writer.output
  | .popping | .moving => t.Old disk ∧ disk.read t.details.partialPath = some t.source
  | .hashing signature => t.Old disk ∧ disk.read t.details.partialPath = some t.source ∧
      t.details.signature = some signature
  | .ending | .finished .renamed => t.New disk
  | .failing false _ | .finished (.failed false) | .panicked => t.Old disk ∨ t.New disk
  | .notifying | .removing | .failing true _ | .finished (.failed true) => False

/-- The job carries a chunk of the source. -/
def Feeds (job : Receiver.Job) : Prop :=
  transferBufferSize ∣ job.index.toNat ∧ job.index.toNat < t.source.length ∧
    CarriesData t.source t.keystream job

def Fed : TaskAction → Prop
  | .job job _ | .jobFail job _ _ => t.Feeds job
  | .proceed | .fail _ _ => True

variable {t} {disk disk' : FileSystem Path} {phase : Phase} {names : Path → Prop}
  {shared shared' : Shared} {task task' : WriterTask} {action : TaskAction}

theorem length_leftover : t.leftover.length = t.details.startIndex.toNat := by
  rw [leftover, List.length_take, Nat.min_eq_left t.within]

/-- The path is always as before, or it has the source. -/
theorem Holds.old_or_new (holds : t.Holds disk phase) : t.Old disk ∨ t.New disk := by
  cases phase with
  | ending => exact .inr holds
  | failing signature error =>
      cases signature with
      | true => exact absurd holds id
      | false => exact holds
  | finished outcome =>
      cases outcome with
      | renamed => exact .inr holds
      | failed signature =>
          cases signature with
          | true => exact absurd holds id
          | false => exact holds
  | panicked => exact holds
  | notifying | removing => exact absurd holds id
  | opening | seeking | subscribing | receiving | popping | hashing | moving => exact .inl holds.1

/-! ## Steps of other tasks -/

theorem Old.keeps (old : t.Old disk) (keeps : Keeps disk disk' t.details.path) : t.Old disk' :=
  keeps.read.trans old

theorem New.keeps (new : t.New disk) (keeps : Keeps disk disk' t.details.path) : t.New disk' :=
  keeps.read.trans new

theorem Partial.keeps {file : Nat} {bytes : Bytes} (partial_ : t.Partial disk file bytes)
    (keeps : Keeps disk disk' t.details.partialPath) : t.Partial disk' file bytes :=
  ⟨keeps.entry.trans partial_.1, (keeps.contents file partial_.1).trans partial_.2⟩

/-- What is left alone is as it was. -/
theorem Holds.keeps (holds : t.Holds disk phase)
    (partial_ : Keeps disk disk' t.details.partialPath)
    (path : Keeps disk disk' t.details.path) : t.Holds disk' phase := by
  have either : t.Old disk ∨ t.New disk → t.Old disk' ∨ t.New disk' :=
    Or.imp (fun old => old.keeps path) (fun new => new.keeps path)
  cases phase with
  | opening => exact ⟨holds.1.keeps path, partial_.read ▸ holds.2⟩
  | seeking file => exact ⟨holds.1.keeps path, holds.2.keeps partial_⟩
  | subscribing file writer =>
      exact ⟨holds.1.keeps path, holds.2.1.keeps partial_, holds.2.2⟩
  | receiving file queue buffered writer =>
      obtain ⟨old, running, passed, written, held⟩ := holds
      exact ⟨old.keeps path, running, passed, written.keeps partial_, held⟩
  | popping | moving => exact ⟨holds.1.keeps path, partial_.read.trans holds.2⟩
  | hashing signature =>
      exact ⟨holds.1.keeps path, partial_.read.trans holds.2.1, holds.2.2⟩
  | ending => exact New.keeps holds path
  | failing signature error =>
      cases signature with
      | true => exact holds
      | false => exact either holds
  | finished outcome =>
      cases outcome with
      | renamed => exact New.keeps holds path
      | failed signature =>
          cases signature with
          | true => exact holds
          | false => exact either holds
  | panicked => exact either holds
  | notifying | removing => exact holds

/-- A step of the task keeps what the disk has of its file. -/
theorem holds_move (move : task.Move t.crates shared action shared' task')
    (mine : task.details = t.details) (holds : t.Holds shared.disk task.phase)
    (apart : Apart shared.disk names) (mem : names t.details.partialPath)
    (mem' : names t.details.path) (fed : t.Fed action) :
    t.Holds shared'.disk task'.phase := by
  have written : ∀ {file : Nat} {passed : Bytes} (bytes : Bytes), t.Old shared.disk →
      t.Partial shared.disk file passed → t.Old (shared.disk.append file bytes) ∧
        t.Partial (shared.disk.append file bytes) file (passed ++ bytes) := by
    intro file passed bytes old partial_
    refine ⟨old.keeps (apart.keeps_append mem mem' partial_.1 t.apart.symm bytes),
      partial_.1, ?_⟩
    rw [FileSystem.contents_append, partial_.2]
  cases move with
  | @opened file disk phase opened =>
      rw [phase] at holds
      rw [mine] at opened
      refine ⟨holds.1.keeps (FileSystem.keeps_openAppend opened t.apart.symm
        (apart.made _ mem')), FileSystem.entries_openAppend opened, ?_⟩
      exact (FileSystem.contents_openAppend opened).trans holds.2
  | @seeked file cipher phase made _ =>
      rw [phase] at holds
      rw [mine] at made ⊢
      have sound := Writer.sound_start cipher t.within
      rw [t.keyed cipher made] at sound
      exact ⟨holds.1, holds.2, ⟨sound, AList.notMem_empty _⟩, rfl⟩
  | subscribed phase registered =>
      rw [phase] at holds
      obtain ⟨old, partial_, running, nothing⟩ := holds
      refine ⟨old, running, _, partial_, ?_⟩
      rw [nothing]
  | @received file queue buffered writer phase running job _ passed =>
      rw [phase] at holds
      rw [mine]
      obtain ⟨old, runs, before, partial_, held⟩ := holds
      obtain ⟨old, partial_⟩ := written _ old partial_
      obtain ⟨aligned, below, carries⟩ := fed
      exact ⟨old, runs.handle_any t.whole t.begins aligned below carries, _, partial_,
        WriterTask.passed_received held t.details.size job passed⟩
  | @flushed file queue buffered writer phase complete =>
      rw [phase] at holds
      rw [mine] at complete
      obtain ⟨old, runs, passed, partial_, held⟩ := holds
      obtain ⟨old, named, contents⟩ := written buffered old partial_
      refine ⟨old, (FileSystem.read_of_entries named).trans (congrArg some ?_)⟩
      rw [contents, held, runs.output_complete t.whole complete, leftover, List.take_append_drop]
  | popped phase =>
      rw [phase] at holds
      rw [mine]
      cases signature : t.details.signature with
      | none => exact holds
      | some signature' => exact ⟨holds.1, holds.2, signature⟩
  | verified phase read same =>
      rw [phase] at holds
      exact ⟨holds.1, holds.2.1⟩
  | mismatched phase read differs =>
      rw [phase] at holds
      rw [mine, holds.2.1] at read
      cases read
      exact absurd (t.signed _ holds.2.2) differs
  | notified phase | removed phase | unremoved phase =>
      rw [phase] at holds
      exact absurd holds id
  | moved phase renamed =>
      rw [phase] at holds
      rw [mine] at renamed
      exact (FileSystem.read_rename renamed).trans holds.2
  | ended phase =>
      rw [phase] at holds
      exact holds
  | @reported signature error phase =>
      rw [phase] at holds
      cases signature with
      | true => exact holds
      | false => exact holds
  | keyPanicked | seekPanicked | sendPanicked => exact holds.old_or_new
  | @keystreamPanicked file queue buffered writer phase running job past passed kept =>
      rw [phase] at holds
      obtain ⟨old, -, before, partial_, -⟩ := holds
      exact .inl (written _ old partial_).1
  | @writeFailed _ file queue buffered writer phase bytes error =>
      rw [phase] at holds
      obtain ⟨old, -, passed, partial_, -⟩ := holds
      exact .inl (written bytes old partial_).1
  | failed => exact holds.old_or_new

end Target

end Cccp
