import Cccp.Control.Delivered
import Cccp.Leftover
import Cccp.Receiver.Directories

/-!
# Interrupted transfers

A transfer can be interrupted at any step.  Both parties are gone then, with all that their
buffers hold, and the next transfer begins with the disk as it is.  `Mirror` is what is to be
received in the end, `History` what any number of interrupted sessions do to the disk, and
`Mirror.Kept` what each of them keeps: a destination has what it had at first or all of its
contents, and what is left over of a file are whole chunks of its front.
`resumed_delivered` is what follows for the session after them.
-/

namespace Cccp

namespace Control

open FileSystem (Apart Keeps)

/-! ## What a session leaves over -/

/-- The `BufWriter` of a task passes on what it must. -/
def Buffers (s : State Fifo) : Action → Prop
  | .task index action => ∀ task, s.tasks[index]? = some task → task.Buffers action
  | _ => True

/-- The tasks that have flushed their last bytes and not renamed their files, and those that
have failed, have left whole chunks. -/
def Interruptible (s : State Fifo) : Prop :=
  ∀ task ∈ s.tasks, task.phase.late = true →
    transferBufferSize ∣ ((s.shared.disk.read task.details.partialPath).getD []).length

namespace Delivery

variable {d : Delivery} {details : FileDetails} {s : State Fifo}

/-- What is known of a file, with what its task leaves over. -/
def leaves (d : Delivery) : PerFile d.toReception where
  names := d.names
  inside := d.inside
  separate := d.separate
  allows _ task action := d.Suits task action ∧ task.Buffers action
  holds details disk phase := ∃ mem : details ∈ d.files,
    (d.target details mem).Holds disk phase ∧ (d.target details mem).Left disk phase
  start details mem := by
    obtain ⟨mem, holds⟩ := d.perFile.start details mem
    exact ⟨mem, holds, trivial⟩
  reads := by
    rintro details disk disk' ⟨mem, holds, -⟩ same
    obtain ⟨mem, holds⟩ := d.perFile.reads ⟨mem, holds⟩ same
    exact ⟨mem, holds, trivial⟩
  keeps := by
    rintro details disk disk' phase ⟨mem, holds, left⟩ partial_ path
    exact ⟨mem, holds.keeps partial_ path, left.keeps holds partial_⟩
  writes := by
    rintro details disk file queue buffered writer ⟨mem, holds, -⟩
    exact d.perFile.writes ⟨mem, holds⟩
  resumes := by
    rintro details disk listed ⟨mem, holds, -⟩ positive
    exact d.perFile.resumes listed ⟨mem, holds⟩ positive
  passes := by
    rintro task shared signature contents phase ⟨mem, holds, -⟩ ⟨suits, -⟩ found
    exact d.perFile.passes phase ⟨mem, holds⟩ suits found
  unremoved := by
    rintro details disk ⟨mem, holds, -⟩
    exact d.perFile.unremoved ⟨mem, holds⟩
  step := by
    rintro task task' shared shared' action listed apart ⟨mem, holds, left⟩ ⟨suits, buffers⟩ stepped
    obtain ⟨mem', after⟩ := d.perFile.step listed apart ⟨mem, holds⟩ suits stepped
    exact ⟨mem', after, Target.left_step stepped rfl holds left (fed_of_suits suits mem) buffers⟩

/-- In every run what the tasks leave over is known. -/
theorem leaves_reached (reached : d.machine.ReachableVia
    (fun s action => d.Fed s action ∧ Buffers s action) s) : d.leaves.Holds s.tasks s.shared.disk := by
  refine (PerFile.reached (reached.mono fun s action ok => ?_)).1.holds
  cases action with
  | task index action => exact fun task here => ⟨ok.1 task here, ok.2 task here⟩
  | sender | senderExit | receiver | receiverExit => trivial

/-- What is left over of a file where a transfer is interrupted. -/
theorem leftover_reached (leaves : d.leaves.Holds s.tasks s.shared.disk)
    (interruptible : Interruptible s) (mem : details ∈ d.files) {bytes : Bytes}
    (read : s.shared.disk.read details.partialPath = some bytes) :
    bytes <+: d.source details.id ∧ transferBufferSize ∣ bytes.length := by
  have same : (s.shared.disk.read details.partialPath).getD [] = bytes := by
    rw [read]
    rfl
  rw [← same]
  obtain ⟨_, holds, left⟩ | ⟨task, there, rfl, _, holds, left⟩ := leaves.exists_phase mem
  · exact ⟨holds.front trivial, holds.chunks trivial rfl⟩
  · refine ⟨holds.front left, ?_⟩
    cases late : task.phase.late with
    | true => exact interruptible task there late
    | false => exact holds.chunks left late

end Delivery

/-! ## One session after another -/

/-- What is to be received: the contents of every destination.  None is named like `..a`, none
is the partial path of one, and no two have one partial path. -/
structure Mirror where
  dest : Path → Prop
  content : Path → Bytes
  plain : ∀ path, dest path → ¬ path.Dotted
  apart : ∀ path other partialPath, dest path → dest other →
    partialPathOf path false = some partialPath → other ≠ partialPath
  injective : ∀ path other partialPath, dest path → dest other →
    partialPathOf path false = some partialPath →
      partialPathOf other false = some partialPath → path = other

namespace Mirror

variable (m : Mirror)

/-- The destinations and their partial paths. -/
def names (name : Path) : Prop :=
  m.dest name ∨ ∃ path, m.dest path ∧ partialPathOf path false = some name

/-- The disk, compared with the one at first. -/
structure Kept (first disk : FileSystem Path) : Prop where
  apart : Apart disk m.names
  dests : ∀ path, m.dest path →
    disk.read path = first.read path ∨ disk.read path = some (m.content path)
  partials : ∀ path partialPath, m.dest path → partialPathOf path false = some partialPath →
    ∀ bytes, disk.read partialPath = some bytes →
      bytes <+: m.content path ∧ transferBufferSize ∣ bytes.length

/-- The session sends contents of the mirror to their destinations, and no directory is where
one of its partial files goes. -/
structure Sends (session : Session) : Prop where
  dest : ∀ details ∈ session.files, m.dest details.path
  content : ∀ details ∈ session.files, session.source details.id = m.content details.path
  undirected : ∀ details ∈ session.files,
    session.disk.entries details.partialPath ≠ some .dir

/-- What interrupted sessions make of a disk. -/
inductive History (first : FileSystem Path) : FileSystem Path → Prop
  | first : History first first
  | session {session : Session} {s : State Fifo} (before : History first session.disk)
      (sends : m.Sends session)
      (reached : session.machine.ReachableVia
        (fun s action => session.Fed s action ∧ Buffers s action) s)
      (interruptible : Interruptible s) : History first s.shared.disk

variable {m} {first : FileSystem Path} {session : Session} {s : State Fifo}

theorem Sends.partialPath (sends : m.Sends session) {details : FileDetails}
    (mem : details ∈ session.files) :
    m.dest details.path ∧ partialPathOf details.path false = some details.partialPath := by
  obtain ⟨entry, -, -, -, has⟩ := mem_preparedFiles session.prepared mem
  have dest := sends.dest details mem
  exact ⟨dest, partialPathOf_of_not_dotted (m.plain _ dest) _ ▸ has⟩

theorem Sends.inside (sends : m.Sends session) {name : Path} (working : session.Working name) :
    m.names name := by
  rcases List.mem_append.mp working with listed | listed
  · obtain ⟨details, mem, rfl⟩ := List.mem_map.mp listed
    exact .inl (sends.dest details mem)
  · obtain ⟨details, mem, rfl⟩ := List.mem_map.mp listed
    exact .inr ⟨_, sends.partialPath mem⟩

/-- The disk that is kept is in order for the session. -/
def Sends.delivery (sends : m.Sends session) (kept : m.Kept first session.disk) : Delivery where
  toSession := session
  names := m.names
  inside _ := sends.inside
  separate := kept.apart
  undirected := sends.undirected
  leftover := by
    intro details mem bytes read
    obtain ⟨dest, partialPath⟩ := sends.partialPath mem
    rw [sends.content details mem]
    exact kept.partials _ _ dest partialPath bytes read

/-- What a session does to the destinations. -/
theorem Sends.dests (sends : m.Sends session) (kept : m.Kept first session.disk)
    (reached : session.machine.ReachableVia session.Fed s) {path : Path} (dest : m.dest path) :
    s.shared.disk.read path = first.read path ∨
      s.shared.disk.read path = some (m.content path) := by
  have reached : (sends.delivery kept).machine.ReachableVia (sends.delivery kept).Fed s := reached
  have holds := Delivery.delivers reached
  by_cases mine : path ∈ session.files.map FileDetails.path
  · obtain ⟨details, mem, rfl⟩ := List.mem_map.mp mine
    rw [← sends.content details mem]
    rcases Delivery.old_or_new reached mem with old | new
    · have old : s.shared.disk.read details.path = session.disk.read details.path := old
      rw [old, sends.content details mem]
      exact kept.dests _ dest
    · exact .inr new
  · have idle : ¬ session.Working path := by
      intro working
      rcases List.mem_append.mp working with listed | listed
      · exact mine listed
      · obtain ⟨details, mem, rfl⟩ := List.mem_map.mp listed
        obtain ⟨dest', partialPath⟩ := sends.partialPath mem
        exact m.apart _ _ _ dest' dest partialPath rfl
    have same : s.shared.disk.read path = session.disk.read path :=
      holds.others path (.inl dest) idle
    rw [same]
    exact kept.dests path dest

/-- An interrupted session keeps the disk in order. -/
theorem Sends.kept (sends : m.Sends session) (kept : m.Kept first session.disk)
    (reached : session.machine.ReachableVia
      (fun s action => session.Fed s action ∧ Buffers s action) s)
    (interruptible : Interruptible s) : m.Kept first s.shared.disk := by
  have fed := reached.mono fun s action ok => ok.1
  have reached : (sends.delivery kept).machine.ReachableVia
    (fun s action => (sends.delivery kept).Fed s action ∧ Buffers s action) s := reached
  have leaves := Delivery.leaves_reached reached
  refine ⟨leaves.apart, fun path dest => sends.dests kept fed dest, ?_⟩
  intro path partialPath dest has bytes read
  by_cases mine : path ∈ session.files.map FileDetails.path
  · obtain ⟨details, mem, rfl⟩ := List.mem_map.mp mine
    obtain rfl := Option.some.inj ((sends.partialPath mem).2.symm.trans has)
    rw [← sends.content details mem]
    exact Delivery.leftover_reached leaves interruptible mem read
  · have idle : ¬ session.Working partialPath := by
      intro working
      rcases List.mem_append.mp working with listed | listed
      · obtain ⟨details, mem, rfl⟩ := List.mem_map.mp listed
        exact m.apart _ _ _ dest (sends.dest details mem) has rfl
      · obtain ⟨details, mem, rfl⟩ := List.mem_map.mp listed
        obtain ⟨dest', partialPath⟩ := sends.partialPath mem
        exact mine (m.injective _ _ _ dest dest' has partialPath ▸ List.mem_map_of_mem mem)
    have same : s.shared.disk.read partialPath = session.disk.read partialPath :=
      leaves.others partialPath (.inr ⟨path, dest, has⟩) idle
    exact kept.partials path partialPath dest has bytes (same ▸ read)

theorem History.kept (start : m.Kept first first) {disk : FileSystem Path}
    (history : m.History first disk) : m.Kept first disk := by
  induction history with
  | first => exact start
  | session before sends reached interruptible ih => exact sends.kept ih reached interruptible

/-- What a session delivers on the disk of interrupted ones. -/
structure Delivers (m : Mirror) (first : FileSystem Path) (session : Session) (s : State Fifo) :
    Prop where
  /-- a destination has what it had at first or all of its contents -/
  dests : ∀ path, m.dest path →
    s.shared.disk.read path = first.read path ∨ s.shared.disk.read path = some (m.content path)
  /-- no byte is asked for that is there already -/
  asked : ∀ details ∈ session.files, details.startIndex.toNat =
    ((session.disk.read details.partialPath).getD []).length
  /-- when the sender is about to write `Done(2)`, every file that was not completed before has
  arrived, or the error of its only attempt has been reported -/
  arrived : s.sender.pc = .finishing → ∀ id ∈ session.cfg.manifest.files, id ∉ s.sender.completed →
    ∃ task, s.tasks.filter (fun task => decide (task.id = id)) = [task] ∧
      task.details ∈ session.files ∧ (task.phase = .finished (.failed false) ∨
        s.shared.disk.read task.details.path = some (m.content task.details.path))

theorem Sends.delivers (sends : m.Sends session) (kept : m.Kept first session.disk)
    (reached : session.machine.ReachableVia session.Fed s) : m.Delivers first session s := by
  have run : (sends.delivery kept).machine.ReachableVia (sends.delivery kept).Fed s := reached
  refine ⟨fun path dest => sends.dests kept reached dest, fun details mem => ?_, ?_⟩
  · obtain ⟨-, within, left⟩ := Delivery.leftover_eq (d := sends.delivery kept) mem
    have length := congrArg List.length left
    rw [List.length_take, Nat.min_eq_left within] at length
    exact length.symm
  · intro finishing id listed incomplete
    obtain ⟨task, only, mem, ended⟩ := Delivery.arrived_of_finishing run finishing listed incomplete
    obtain ⟨-, own⟩ := List.mem_filter.mp (only ▸ List.mem_singleton_self task)
    have own : task.details.id = id := of_decide_eq_true own
    have mem : task.details ∈ session.files := mem
    refine ⟨task, only, mem, ended.imp_right fun read => ?_⟩
    rw [← sends.content task.details mem, own]
    exact read

end Mirror

/-! ## A receiver that is killed once -/

theorem partialPathOf_oldDetails :
    partialPathOf oldDetails.path false = some oldDetails.partialPath := by
  decide

/-- Only the old file is to be replaced. -/
def oneFile : Mirror where
  dest path := path = oldDetails.path
  content _ := [7, 8]
  plain := by
    rintro path rfl
    decide
  apart := by
    rintro path other partialPath rfl rfl has
    cases has.symm.trans partialPathOf_oldDetails
    decide
  injective := by
    rintro path other partialPath rfl rfl - -
    rfl

theorem oneFile_kept : oneFile.Kept oldDisk oldDisk where
  apart := oldDisk_apart _
  dests _ _ := .inl rfl
  partials := by
    rintro path partialPath rfl has bytes read
    cases has.symm.trans partialPathOf_oldDetails
    cases read

/-- The whole file is in the buffer when the receiver is killed. -/
def killedActions : List Action :=
  startedOnce ++ List.replicate 3 (.task 0 .proceed) ++ [.task 0 (.job onlyJob 0)]

/-- `Buffers`, computed. -/
def passesOnce (s : State Fifo) (action : Action) : Bool :=
  match action with
  | .task index (.job job passed) =>
      match s.tasks[index]? with
      | some ⟨details, .receiving _ _ buffered writer⟩ =>
          decide (passed = writer.passes details.size buffered.length job)
      | _ => true
  | _ => true

theorem buffers_of_passesOnce {s : State Fifo} {action : Action}
    (passes : passesOnce s action = true) : Buffers s action := by
  cases action with
  | task index action =>
      intro task here
      cases action with
      | job job passed =>
          obtain ⟨details, phase⟩ := task
          cases phase with
          | receiving file queue buffered writer =>
              simp only [passesOnce, here] at passes
              have same : passed = writer.passes details.size buffered.length job :=
                of_decide_eq_true passes
              exact same
          | _ => trivial
      | _ => trivial
  | _ => trivial

def buffersOnce (s : State Fifo) (action : Action) : Bool :=
  deliversJob action && passesOnce s action

theorem buffersOnce_sound {s : State Fifo} {action : Action}
    (passes : buffersOnce s action = true) : overwritten.Fed s action ∧ Buffers s action := by
  obtain ⟨delivers, passes⟩ := Bool.and_eq_true_iff.mp passes
  exact ⟨fed_of_deliversJob rfl rfl delivers, buffers_of_passesOnce passes⟩

def killed : State Fifo :=
  (overwritten.machine.runVia buffersOnce (initial twoBytes oldDisk ⟨[], []⟩) killedActions).getD
    (initial twoBytes oldDisk ⟨[], []⟩)

theorem killed_reached : overwritten.machine.ReachableVia
    (fun s action => overwritten.Fed s action ∧ Buffers s action) killed := by
  have runs : (overwritten.machine.runVia buffersOnce (initial twoBytes oldDisk ⟨[], []⟩)
      killedActions).isSome = true := by
    decide +kernel
  obtain ⟨s, ran⟩ := Option.isSome_iff_exists.mp runs
  have same : killed = s := by
    rw [killed, ran, Option.getD_some]
  rw [same]
  exact ((Machine.ReachableVia.init rfl).runVia ran).mono fun s action => buffersOnce_sound

/-- The transfer over what is left on the disk. -/
def onceMore (disk : FileSystem Path)
    (prepared : preparedFiles twoBytes.options (diskView twoBytes.dirLen disk) twoBytes.manifest =
      some [oldDetails]) : Session where
  cfg := twoBytes
  disk := disk
  source _ := [7, 8]
  keystream _ := fun _ => 0
  files := [oldDetails]
  prepared := prepared
  whole := overwritten.whole
  signed := overwritten.signed
  keyed := overwritten.keyed
  distinct := overwritten.distinct

/-- The transfer after the kill. -/
def resumed : Session := onceMore killed.shared.disk (by decide +kernel)

theorem oneFile_sends {session : Session} (files : session.files = [oldDetails])
    (source : session.source = fun _ => [7, 8])
    (undirected : session.disk.entries oldDetails.partialPath ≠ some .dir) :
    oneFile.Sends session where
  dest details mem := by
    rw [files] at mem
    rw [List.mem_singleton.mp mem]
    rfl
  content _ _ := congrFun source _
  undirected details mem := by
    rw [files] at mem
    rwa [List.mem_singleton.mp mem]

end Control

end Cccp
