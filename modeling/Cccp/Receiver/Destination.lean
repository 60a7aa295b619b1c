import Cccp.Lib.Machine
import Cccp.Receiver.Task

/-!
# Replacing the destination

One run of `receiver::writer` beside tasks that leave its two paths alone.  Jobs are
arbitrary, and any operation may fail.

`destination_kept` says that the file at the final path changes by the rename only, that
the rename moves what a complete loop has written and the signature, if there is one,
was found to match, and that `End` is sent after it.
-/

namespace Cccp

/-- A writer about to run, and the disk it finds. -/
structure Replacement where
  crates : Crates
  details : FileDetails
  shared : Shared
  apart : details.partialPath ≠ details.path
  /-- the two paths do not name the same file -/
  separate : ∀ inode, shared.disk.entries details.partialPath = some (.file inode) →
    shared.disk.entries details.path ≠ some (.file inode)
  made : ∀ name, FileSystem.Made shared.disk name

namespace Replacement

open FileSystem (Keeps Made)

inductive Event where
  | own (action : TaskAction)
  | others (after : Shared)

variable (r : Replacement)

/-- The writer task, and whatever the other tasks do. -/
def machine : Machine (Shared × WriterTask) Event where
  init s := s = (r.shared, ⟨r.details, .opening⟩)
  step s
    | .own action => s.2.step r.crates s.1 action
    | .others after => some (after, s.2)

/-- The other tasks leave both paths alone. -/
def Alone (s : Shared × WriterTask) : Event → Prop
  | .own _ => True
  | .others after => Keeps s.1.disk after.disk r.details.partialPath ∧
      Keeps s.1.disk after.disk r.details.path ∧ s.1.disk.fresh ≤ after.disk.fresh

/-- The next step is the rename, and it succeeds. -/
def Renames (s : Shared × WriterTask) (event : Event) : Prop :=
  event = .own .proceed ∧ s.2.phase = .moving ∧
    (s.1.disk.rename r.details.partialPath r.details.path).isSome = true

/-- The steps that leave both paths alone and are not the rename. -/
def NoRename (s : Shared × WriterTask) (event : Event) : Prop :=
  r.Alone s event ∧ ¬ r.Renames s event

/-! ## What is written -/

/-- The contents of the partial file that the writer finds. -/
def leftover : Bytes :=
  (r.shared.disk.read r.details.partialPath).getD []

/-- The loop has come to `w`. -/
def Loops (w : Writer) : Prop :=
  ∃ cipher delivered, r.details.crypto.makeCipher r.crates.cipher = .made cipher ∧
    w = (Writer.start r.details.startIndex cipher).run r.details.size delivered

/-- The position has reached the size, and everything the loop has written follows what
was left over. -/
def Flushed (bytes : Bytes) : Prop :=
  ∃ w, r.Loops w ∧ w.position = r.details.size ∧ bytes = r.leftover ++ w.output

/-- A complete file that has the signature, if there is one. -/
def Complete (bytes : Bytes) : Prop :=
  r.Flushed bytes ∧ ∀ signature, r.details.signature = some signature →
    r.crates.hash bytes = signature

/-- A complete file that does not have the signature. -/
def Mismatched : Prop :=
  ∃ bytes signature, r.Flushed bytes ∧ r.details.signature = some signature ∧
    r.crates.hash bytes ≠ signature

/-! ## The invariant of the task -/

/-- The final path is as the writer found it. -/
def Kept (disk : FileSystem Path) : Prop :=
  Keeps r.shared.disk disk r.details.path

/-- The final path has a complete file. -/
def Replaced (disk : FileSystem Path) : Prop :=
  ∃ bytes, disk.read r.details.path = some bytes ∧ r.Complete bytes

/-- The partial path has the bytes. -/
def Partial (disk : FileSystem Path) (file : Nat) (bytes : Bytes) : Prop :=
  disk.entries r.details.partialPath = some (.file file) ∧ disk.contents file = bytes

def PhaseInv (disk : FileSystem Path) : Phase → Prop
  | .opening => r.Kept disk ∧ disk.read r.details.partialPath =
      r.shared.disk.read r.details.partialPath
  | .seeking file => r.Kept disk ∧ r.Partial disk file r.leftover
  | .subscribing file writer =>
      r.Kept disk ∧ r.Partial disk file r.leftover ∧
        ∃ cipher, r.details.crypto.makeCipher r.crates.cipher = .made cipher ∧
          writer = Writer.start r.details.startIndex cipher
  | .receiving file _ buffered writer => r.Kept disk ∧ r.Loops writer ∧
      ∃ passed, r.Partial disk file passed ∧ passed ++ buffered = r.leftover ++ writer.output
  | .popping => r.Kept disk ∧
      ∃ bytes, disk.read r.details.partialPath = some bytes ∧ r.Flushed bytes
  | .hashing signature => r.Kept disk ∧ r.details.signature = some signature ∧
      ∃ bytes, disk.read r.details.partialPath = some bytes ∧ r.Flushed bytes
  | .moving => r.Kept disk ∧
      ∃ bytes, disk.read r.details.partialPath = some bytes ∧ r.Complete bytes
  | .notifying | .removing | .failing true _ | .finished (.failed true) =>
      r.Kept disk ∧ r.Mismatched
  | .ending | .finished .renamed => r.Replaced disk
  | .failing false _ | .finished (.failed false) | .panicked => r.Kept disk ∨ r.Replaced disk

structure Inv (s : Shared × WriterTask) : Prop where
  details : s.2.details = r.details
  separate : ∀ inode, s.1.disk.entries r.details.partialPath = some (.file inode) →
    s.1.disk.entries r.details.path ≠ some (.file inode)
  partial_ : Made s.1.disk r.details.partialPath
  final : Made s.1.disk r.details.path
  phase : r.PhaseInv s.1.disk s.2.phase

variable {r} {disk disk' : FileSystem Path} {s s' : Shared × WriterTask}

/-- The other tasks keep what the task relies on. -/
theorem phaseInv_keeps {phase : Phase} (inv : r.PhaseInv disk phase)
    (partial_ : Keeps disk disk' r.details.partialPath) (path : Keeps disk disk' r.details.path) :
    r.PhaseInv disk' phase := by
  have kept : r.Kept disk → r.Kept disk' := fun kept => kept.trans path
  have replaced : r.Replaced disk → r.Replaced disk' := by
    rintro ⟨bytes, read, complete⟩
    exact ⟨bytes, path.read.trans read, complete⟩
  have named : ∀ {file bytes}, r.Partial disk file bytes → r.Partial disk' file bytes := by
    rintro file bytes ⟨entry, contents⟩
    exact ⟨partial_.entry.trans entry, (partial_.contents file entry).trans contents⟩
  have flushed : ∀ {P : Bytes → Prop},
      (∃ bytes, disk.read r.details.partialPath = some bytes ∧ P bytes) →
        ∃ bytes, disk'.read r.details.partialPath = some bytes ∧ P bytes := by
    rintro P ⟨bytes, read, holds⟩
    exact ⟨bytes, partial_.read.trans read, holds⟩
  cases phase with
  | opening => exact ⟨kept inv.1, partial_.read.trans inv.2⟩
  | seeking file => exact ⟨kept inv.1, named inv.2⟩
  | subscribing file writer => exact ⟨kept inv.1, named inv.2.1, inv.2.2⟩
  | receiving file queue buffered writer =>
      obtain ⟨path_, loops, passed, onDisk, held⟩ := inv
      exact ⟨kept path_, loops, passed, named onDisk, held⟩
  | popping => exact ⟨kept inv.1, flushed inv.2⟩
  | hashing signature => exact ⟨kept inv.1, inv.2.1, flushed inv.2.2⟩
  | moving => exact ⟨kept inv.1, flushed inv.2⟩
  | notifying | removing => exact ⟨kept inv.1, inv.2⟩
  | ending => exact replaced inv
  | panicked => exact inv.imp kept replaced
  | failing signature error =>
      cases signature with
      | true => exact ⟨kept inv.1, inv.2⟩
      | false => exact inv.imp kept replaced
  | finished outcome =>
      cases outcome with
      | renamed => exact replaced inv
      | failed signature =>
          cases signature with
          | true => exact ⟨kept inv.1, inv.2⟩
          | false => exact inv.imp kept replaced

/-- Before the rename the final path is as it was found. -/
theorem Inv.kept_or (inv : r.Inv s) : r.Kept s.1.disk ∨ r.Replaced s.1.disk := by
  have phase := inv.phase
  cases here : s.2.phase with
  | failing signature error =>
      rw [here] at phase
      cases signature with
      | true => exact .inl phase.1
      | false => exact phase
  | finished outcome =>
      rw [here] at phase
      cases outcome with
      | renamed => exact .inr phase
      | failed signature =>
          cases signature with
          | true => exact .inl phase.1
          | false => exact phase
  | ending =>
      rw [here] at phase
      exact .inr phase
  | panicked =>
      rw [here] at phase
      exact phase
  | _ =>
      rw [here] at phase
      exact .inl phase.1

/-! ## The steps of the task -/

theorem Loops.handle {w : Writer} (loops : r.Loops w) (running : w.position ≠ r.details.size)
    (job : Receiver.Job) : r.Loops (w.handle r.details.size job) := by
  obtain ⟨cipher, delivered, made, rfl⟩ := loops
  exact ⟨cipher, delivered ++ [job], made, (Writer.run_concat _ _ _ _ running).symm⟩

/-- Writing to the partial file leaves the final path alone. -/
theorem Inv.append (inv : r.Inv s) {file : Nat} {bytes passed : Bytes}
    (onDisk : r.Partial s.1.disk file passed) :
    Keeps s.1.disk (s.1.disk.append file bytes) r.details.path ∧
      r.Partial (s.1.disk.append file bytes) file (passed ++ bytes) := by
  refine ⟨FileSystem.keeps_append (inv.separate file onDisk.1), onDisk.1, ?_⟩
  rw [FileSystem.contents_append, onDisk.2]

/-- The bytes of the partial file once the loop is done. -/
theorem read_partial {file : Nat} {bytes : Bytes} (onDisk : r.Partial disk file bytes) :
    disk.read r.details.partialPath = some bytes := by
  rw [FileSystem.read_of_entries onDisk.1, onDisk.2]

/-- A step of the task that changes nothing on the disk but the contents of files. -/
theorem Inv.goto (inv : r.Inv s) {shared : Shared} {phase : Phase}
    (entries : shared.disk.entries = s.1.disk.entries) (fresh : shared.disk.fresh = s.1.disk.fresh)
    (holds : r.PhaseInv shared.disk phase) : r.Inv (shared, s.2.goto phase) where
  details := inv.details
  separate := by
    show ∀ inode, shared.disk.entries _ = _ → shared.disk.entries _ ≠ _
    rw [entries]
    exact inv.separate
  partial_ := fun inode named => fresh ▸ inv.partial_ inode (entries ▸ named)
  final := fun inode named => fresh ▸ inv.final inode (entries ▸ named)
  phase := holds

/-- A step of the task keeps the invariant. -/
theorem inv_own {action : TaskAction} (inv : r.Inv s)
    (next : s.2.step r.crates s.1 action = some s') : r.Inv s' := by
  obtain ⟨shared, task⟩ := s
  obtain ⟨shared', task'⟩ := s'
  have details := inv.details
  have here := inv.phase
  have move : WriterTask.Move r.crates shared task action shared' task' :=
    WriterTask.step_cases next
  simp only at details here
  cases move with
  | @opened file disk phase opened =>
      rw [phase] at here
      rw [details] at opened
      obtain ⟨kept, same⟩ := here
      have named := FileSystem.entries_openAppend opened
      have unchanged := FileSystem.keeps_openAppend opened r.apart.symm inv.final
      have contents : disk.contents file = r.leftover := by
        rw [FileSystem.contents_openAppend opened, leftover, same]
      refine ⟨details, fun inode other => ?_, FileSystem.made_openAppend opened inv.partial_,
        unchanged.made inv.final (FileSystem.fresh_openAppend opened), kept.trans unchanged, named,
        contents⟩
      obtain rfl : file = inode := Node.file.inj (Option.some.inj (named.symm.trans other))
      exact FileSystem.openAppend_apart opened r.apart.symm inv.final inv.separate
  | @seeked file cipher phase made _ =>
      rw [phase] at here
      rw [details] at made
      refine inv.goto rfl rfl ⟨here.1, here.2, cipher, made, ?_⟩
      rw [details]
  | @subscribed file queue writer phase _ =>
      rw [phase] at here
      obtain ⟨kept, onDisk, cipher, made, rfl⟩ := here
      refine inv.goto rfl rfl ⟨kept, ⟨cipher, [], made, rfl⟩, r.leftover, onDisk, ?_⟩
      rw [List.append_nil]
      exact (List.append_nil _).symm
  | @received file queue buffered writer phase running job _ passed =>
      rw [phase] at here
      rw [details] at running ⊢
      obtain ⟨kept, loops, before, onDisk, held⟩ := here
      obtain ⟨unchanged, onDisk'⟩ := @Inv.append r _ inv file
        ((WriterTask.buffer buffered writer (writer.handle r.details.size job)).take passed)
        before onDisk
      exact inv.goto rfl rfl ⟨kept.trans unchanged, loops.handle running job, _, onDisk',
        WriterTask.passed_received held r.details.size job passed⟩
  | @flushed file queue buffered writer phase complete =>
      rw [phase] at here
      rw [details] at complete
      obtain ⟨kept, loops, before, onDisk, held⟩ := here
      obtain ⟨unchanged, whole⟩ := @Inv.append r _ inv file buffered before onDisk
      exact inv.goto rfl rfl ⟨kept.trans unchanged, _, read_partial whole, writer, loops,
        complete, held⟩
  | popped phase =>
      rw [phase] at here
      refine inv.goto rfl rfl ?_
      rw [details]
      cases signature : r.details.signature with
      | none =>
          obtain ⟨kept, bytes, read, flushed⟩ := here
          refine ⟨kept, bytes, read, flushed, fun _ given => ?_⟩
          rw [signature] at given
          cases given
      | some value => exact ⟨here.1, signature, here.2⟩
  | @verified signature contents phase read same =>
      rw [phase] at here
      rw [details] at read
      obtain ⟨kept, given, bytes, read', flushed⟩ := here
      obtain rfl : bytes = contents := Option.some.inj (read'.symm.trans read)
      refine inv.goto rfl rfl ⟨kept, bytes, read, flushed, fun _ given' => ?_⟩
      exact same.trans (Option.some.inj (given.symm.trans given'))
  | @mismatched signature contents phase read differs =>
      rw [phase] at here
      rw [details] at read
      obtain ⟨kept, given, bytes, read', flushed⟩ := here
      obtain rfl : bytes = contents := Option.some.inj (read'.symm.trans read)
      exact inv.goto rfl rfl ⟨kept, bytes, signature, flushed, given, differs⟩
  | notified phase _ =>
      rw [phase] at here
      exact inv.goto rfl rfl here
  | @removed disk phase removed =>
      rw [phase] at here
      rw [details] at removed
      have unchanged := FileSystem.keeps_remove removed r.apart.symm
      have gone := FileSystem.entries_remove removed
      exact ⟨details, fun inode named => (by cases gone.symm.trans named),
        fun inode named => (by cases gone.symm.trans named),
        unchanged.made inv.final (FileSystem.fresh_remove removed).ge, here.1.trans unchanged, here.2⟩
  | unremoved phase =>
      rw [phase] at here
      exact inv.goto rfl rfl here
  | @moved disk phase renamed =>
      rw [phase] at here
      rw [details] at renamed
      obtain ⟨kept, bytes, read, complete⟩ := here
      have moved := FileSystem.read_rename renamed
      have gone := FileSystem.entries_rename_source renamed r.apart
      exact ⟨details, fun inode named => (by cases gone.symm.trans named),
        fun inode named => (by cases gone.symm.trans named),
        FileSystem.made_rename renamed inv.partial_, bytes, moved.trans read, complete⟩
  | ended phase _ =>
      rw [phase] at here
      exact inv.goto rfl rfl here
  | @reported signature error phase _ =>
      rw [phase] at here
      refine inv.goto rfl rfl ?_
      cases signature <;> exact here
  | keyPanicked | seekPanicked | sendPanicked => exact inv.goto rfl rfl inv.kept_or
  | @keystreamPanicked file queue buffered writer phase running job past passed kept_ =>
      rw [phase] at here
      obtain ⟨kept, loops, before, onDisk, held⟩ := here
      obtain ⟨unchanged, -⟩ := @Inv.append r _ inv file
        ((WriterTask.buffer buffered writer (writer.handle task.details.size job)).take kept_)
        before onDisk
      exact inv.goto rfl rfl (.inl (kept.trans unchanged))
  | @writeFailed action file queue buffered writer phase bytes error =>
      rw [phase] at here
      obtain ⟨kept, loops, before, onDisk, held⟩ := here
      obtain ⟨unchanged, -⟩ := @Inv.append r _ inv file bytes before onDisk
      exact inv.goto rfl rfl (.inl (kept.trans unchanged))
  | failed error phase => exact inv.goto rfl rfl inv.kept_or

/-! ## Runs of the task -/

theorem inv_step {event : Event} (inv : r.Inv s) (alone : r.Alone s event)
    (next : r.machine.step s event = some s') : r.Inv s' := by
  cases event with
  | own action => exact inv_own inv next
  | others after =>
      cases next
      obtain ⟨partial_, final, later⟩ := alone
      refine ⟨inv.details, ?_, partial_.made inv.partial_ later, final.made inv.final later,
        phaseInv_keeps inv.phase partial_ final⟩
      intro inode named
      rw [final.entry]
      exact inv.separate inode (partial_.entry.symm.trans named)

theorem inv_reached {ok : Shared × WriterTask → Event → Prop}
    (alone : ∀ s event, ok s event → r.Alone s event) (reached : r.machine.ReachableVia ok s) :
    r.Inv s := by
  refine reached.invariant ?_ ?_
  · rintro _ rfl
    exact ⟨rfl, r.separate, r.made _, r.made _, Keeps.refl _ _, rfl⟩
  · intro _ _ _ _ inv allowed next
    exact inv_step inv (alone _ _ allowed) next

/-- Only the rename changes the final path. -/
theorem keeps_step {event : Event} (inv : r.Inv s) (allowed : r.NoRename s event)
    (next : r.machine.step s event = some s') : Keeps s.1.disk s'.1.disk r.details.path := by
  obtain ⟨alone, notRename⟩ := allowed
  cases event with
  | others after =>
      cases next
      exact alone.2.1
  | own action =>
      obtain ⟨shared, task⟩ := s
      obtain ⟨shared', task'⟩ := s'
      have details := inv.details
      have here := inv.phase
      have move : WriterTask.Move r.crates shared task action shared' task' :=
        WriterTask.step_cases next
      simp only at details here
      cases move with
      | opened phase opened =>
          rw [details] at opened
          exact FileSystem.keeps_openAppend opened r.apart.symm inv.final
      | removed phase removed =>
          rw [details] at removed
          exact FileSystem.keeps_remove removed r.apart.symm
      | moved phase renamed =>
          rw [details] at renamed
          exact absurd ⟨rfl, phase, by rw [renamed]; rfl⟩ notRename
      | received phase running job _ passed =>
          rw [phase] at here
          obtain ⟨-, -, before, onDisk, -⟩ := here
          exact (@Inv.append r _ inv _ _ before onDisk).1
      | keystreamPanicked phase running job past passed kept =>
          rw [phase] at here
          obtain ⟨-, -, before, onDisk, -⟩ := here
          exact (@Inv.append r _ inv _ _ before onDisk).1
      | flushed phase complete =>
          rw [phase] at here
          obtain ⟨-, -, before, onDisk, -⟩ := here
          exact (@Inv.append r _ inv _ _ before onDisk).1
      | writeFailed phase bytes error =>
          rw [phase] at here
          obtain ⟨-, -, before, onDisk, -⟩ := here
          exact (@Inv.append r _ inv _ _ before onDisk).1
      | seeked | subscribed | popped | verified | mismatched | notified | unremoved | ended
      | reported | keyPanicked | seekPanicked | sendPanicked | failed => exact Keeps.refl _ _

theorem kept_reached (reached : r.machine.ReachableVia r.NoRename s) : r.Kept s.1.disk := by
  refine @Machine.ReachableVia.invariant _ _ _ _ (fun s => r.Kept s.1.disk) ?_ ?_ _ reached
  · rintro _ rfl
    exact Keeps.refl _ _
  · intro _ _ _ before kept allowed next
    exact kept.trans (keeps_step (inv_reached (fun _ _ allowed => allowed.1) before) allowed next)

/-- The task has found that the signature does not match. -/
def SawMismatch : Phase → Prop
  | .notifying | .removing | .failing true _ | .finished (.failed true) => True
  | _ => False

/-- `End` is sent in `ending` only. -/
theorem ending_of_end {action : TaskAction}
    (next : s.2.step r.crates s.1 action = some s')
    (said : s'.1.messages = s.1.messages ++ [.end_ s.2.id]) : s.2.phase = .ending := by
  have tells := (WriterTask.step_cases next).tells
  generalize s'.2.phase = after at tells
  generalize s'.1 = shared' at tells said
  cases tells with
  | nothing same =>
      rw [same] at said
      simp at said
  | mismatch phase => simp [Shared.send] at said
  | end_ phase => exact phase
  | error phase => simp [Shared.send] at said

end Replacement

open Replacement in
/-- **The destination is kept** until the rename, for all jobs and failures.  In a run
without the rename the final path stays as it was found.  In any run the rename moves a
flushed and complete file that has the signature, if there is one; a task that has seen a
mismatch does not rename; and `End` is sent when the final path has the complete file. -/
theorem destination_kept (r : Replacement) :
    (∀ s, r.machine.ReachableVia r.NoRename s → r.Kept s.1.disk) ∧
      ∀ s, r.machine.ReachableVia r.Alone s →
        (∀ event, r.Renames s event →
          ∃ bytes, s.1.disk.read r.details.partialPath = some bytes ∧ r.Complete bytes) ∧
        (SawMismatch s.2.phase → r.Kept s.1.disk) ∧
        ∀ action s', s.2.step r.crates s.1 action = some s' →
          s'.1.messages = s.1.messages ++ [.end_ s.2.id] → r.Replaced s.1.disk := by
  refine ⟨fun s reached => kept_reached reached, fun s reached => ?_⟩
  have inv := inv_reached (fun _ _ alone => alone) reached
  have here := inv.phase
  refine ⟨?_, fun mismatch => ?_, fun action s' next said => ?_⟩
  · rintro event ⟨-, moving, -⟩
    rw [moving] at here
    exact here.2
  · cases phase : s.2.phase with
    | notifying | removing =>
        rw [phase] at here
        exact here.1
    | failing signature error =>
        rw [phase] at here mismatch
        cases signature with
        | true => exact here.1
        | false => exact mismatch.elim
    | finished outcome =>
        rw [phase] at here mismatch
        cases outcome with
        | renamed => exact mismatch.elim
        | failed signature =>
            cases signature with
            | true => exact here.1
            | false => exact mismatch.elim
    | _ =>
        rw [phase] at mismatch
        exact mismatch.elim
  · rw [ending_of_end next said] at here
    exact here

/-- A signed file of three bytes that replaces the file `[7]`. -/
def Replacement.overwriting : Replacement where
  crates := ⟨⟨fun _ _ _ _ => 0, fun _ => none⟩, fun bytes => bytes⟩
  details :=
    { id := 0
      path := [.normal [97]]
      partialPath := [.normal [98]]
      size := 3
      startIndex := 0
      signature := some [1, 2, 3]
      crypto := ⟨0, [], []⟩ }
  shared :=
    { disk := ⟨fun path => if path = [.normal [97]] then some (.file 0) else none,
        fun _ => [7], 1⟩
      queues := fun _ => some 0
      nextQueue := 1
      messages := []
      closed := false }
  apart := by decide
  separate := fun _ named => by cases named
  made := by
    intro name inode named
    simp only at named
    split at named
    next =>
      cases named
      decide
    next => cases named

/-- The writer takes in its only chunk, and comes to the end of the file. -/
def overwritingEvents : List Replacement.Event :=
  List.replicate 3 (.own .proceed) ++ [.own (.job ⟨[1, 2, 3], 0⟩ 0)] ++
    List.replicate 4 (.own .proceed)

/-- The task is its own, and is about to send `End`. -/
def aboutToEnd (s : Shared × WriterTask) : Bool :=
  match s.1.messages, s.2.step Replacement.overwriting.crates s.1 .proceed with
  | [], some s' =>
      match s'.1.messages with
      | [.end_ id] => decide (id = s.2.id) &&
          decide (s.1.disk.read Replacement.overwriting.details.path = some [1, 2, 3])
      | _ => false
  | _, _ => false

/-- What the final path has when `End` is sent is the signed file. -/
theorem destination_kept_overwriting : ∃ s s',
    Replacement.overwriting.machine.ReachableVia Replacement.overwriting.Alone s ∧
      s.2.step Replacement.overwriting.crates s.1 .proceed = some s' ∧
      s'.1.messages = s.1.messages ++ [.end_ s.2.id] ∧
      s.1.disk.read Replacement.overwriting.details.path = some [1, 2, 3] ∧
      Replacement.overwriting.Replaced s.1.disk := by
  obtain ⟨s, reached, passed⟩ := @Machine.reachableVia_of_test _ _ Replacement.overwriting.machine _
    rfl overwritingEvents (fun _ event => match event with
      | .own _ => true
      | .others _ => false) aboutToEnd (by decide +kernel)
  have alone : Replacement.overwriting.machine.ReachableVia Replacement.overwriting.Alone s := by
    refine reached.mono fun s event own => ?_
    cases event with
    | own action => trivial
    | others after => cases own
  unfold aboutToEnd at passed
  split at passed
  next s' quiet next =>
    split at passed
    next id said =>
      obtain ⟨own, read⟩ := Bool.and_eq_true_iff.mp passed
      have ends : s'.1.messages = s.1.messages ++ [.end_ s.2.id] := by
        rw [quiet, said, of_decide_eq_true own]
        rfl
      have replaced := ((destination_kept Replacement.overwriting).2 s alone).2.2 _ s' next ends
      exact ⟨s, s', alone, next, ends, of_decide_eq_true read, replaced⟩
    next => cases passed
  next => cases passed

end Cccp
