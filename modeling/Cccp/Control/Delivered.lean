import Cccp.Control.PerFile
import Cccp.Receiver.Target

/-!
# What a transfer delivers

The controllers, the receiver's disk and all writer tasks together, as long as the jobs that
reach a task carry chunks of its source (`Cccp.Transfer.Integrity`) and nothing else writes to
the disk.  `Session` is such a transfer, `Delivery` one whose disk is in order.  In its runs
every task has what `Target.Holds` says of its file (`Delivery.delivers`), and
`destination_delivered` is what follows for the destinations.
-/

namespace Cccp

namespace Control

open FileSystem (Apart Keeps)

/-- A transfer of sources to a disk. -/
structure Session extends Reception where
  source : UInt32 → Bytes
  keystream : UInt32 → Keystream
  whole : ∀ details ∈ files, details.size.toNat = (source details.id).length
  signed : ∀ details ∈ files, ∀ signature, details.signature = some signature →
    cfg.crates.hash (source details.id) = signature
  keyed : ∀ details ∈ files, ∀ cipher, details.crypto.makeCipher cfg.crates.cipher = .made cipher →
    cipher.keystream = keystream details.id

namespace Session

/-- The job carries a chunk of the source of `id`. -/
def Feeds (d : Session) (id : UInt32) (job : Receiver.Job) : Prop :=
  transferBufferSize ∣ job.index.toNat ∧ job.index.toNat < (d.source id).length ∧
    CarriesData (d.source id) (d.keystream id) job

/-- What a task does is to take in a chunk of its file, or another operation. -/
def Suits (d : Session) (task : WriterTask) : TaskAction → Prop
  | .job job _ | .jobFail job _ _ => d.Feeds task.id job
  | _ => True

/-- A job that reaches a task carries a chunk of the source of its file. -/
def Fed (d : Session) (s : State Fifo) : Action → Prop
  | .task index action => ∀ task, s.tasks[index]? = some task → d.Suits task action
  | _ => True

end Session

/-- A transfer to a disk that is in order: no two of some paths, those of the transfer among
them, name the same file, no directory is where a partial file goes, and what an earlier
transfer left over of a file are whole chunks of its front. -/
structure Delivery extends Session where
  names : Path → Prop
  inside : ∀ name, toReception.Working name → names name
  separate : Apart disk names
  undirected : ∀ details ∈ files, disk.entries details.partialPath ≠ some .dir
  leftover : ∀ details ∈ files, ∀ bytes, disk.read details.partialPath = some bytes →
    bytes <+: source details.id ∧ transferBufferSize ∣ bytes.length

namespace Delivery

variable {d : Delivery} {details : FileDetails}

/-- What was left over of a file is what comes before its start index. -/
theorem leftover_eq (mem : details ∈ d.files) :
    transferBufferSize ∣ details.startIndex.toNat ∧
      details.startIndex.toNat ≤ (d.source details.id).length ∧
      (d.disk.read details.partialPath).getD [] =
        (d.source details.id).take details.startIndex.toNat := by
  have start := startIndex_of_prepared d.prepared mem
  have nothing : d.disk.read details.partialPath = none → details.startIndex.toNat = 0 →
      transferBufferSize ∣ details.startIndex.toNat ∧
        details.startIndex.toNat ≤ (d.source details.id).length ∧
        (d.disk.read details.partialPath).getD [] =
          (d.source details.id).take details.startIndex.toNat := by
    intro none_ zero
    rw [none_, zero]
    exact ⟨Nat.dvd_zero _, Nat.zero_le _, rfl⟩
  cases entry : d.disk.entries details.partialPath with
  | none =>
      rw [diskView, entry] at start
      exact nothing (by rw [FileSystem.read, entry]) (by rw [start]; rfl)
  | some node =>
      cases node with
      | dir => exact absurd entry (d.undirected details mem)
      | file inode =>
          have read := FileSystem.read_of_entries entry
          obtain ⟨front, aligned⟩ := d.leftover details mem _ read
          have short := front.length_le
          have fits : (d.disk.contents inode).length < UInt64.size :=
            Nat.lt_of_le_of_lt short (d.whole details mem ▸ details.size.toNat_lt)
          rw [diskView, entry, Option.map_some] at start
          have index : details.startIndex.toNat = (d.disk.contents inode).length := by
            rw [start, toNat_startIndex, UInt64.toNat_ofNat_of_lt' fits]
            exact Nat.div_mul_cancel aligned
          rw [index, read]
          exact ⟨aligned, short, List.prefix_iff_eq_take.mp front⟩

/-- A file of the transfer. -/
def target (d : Delivery) (details : FileDetails) (mem : details ∈ d.files) : Target where
  crates := d.cfg.crates
  details := details
  source := d.source details.id
  keystream := d.keystream details.id
  before := d.disk.read details.path
  whole := d.whole details mem
  begins := (leftover_eq mem).1
  within := (leftover_eq mem).2.1
  signed := d.signed details mem
  keyed := d.keyed details mem
  apart := (Reception.path_ne_partialPath mem mem).symm

theorem fed_of_suits {task : WriterTask} {action : TaskAction} (suits : d.Suits task action)
    (mem : task.details ∈ d.files) : (d.target task.details mem).Fed action := by
  cases action with
  | job job passed => exact suits
  | jobFail job passed error => exact suits
  | proceed | fail => trivial

/-- What is known of a file is what `Target.Holds` says. -/
def perFile (d : Delivery) : PerFile d.toReception where
  names := d.names
  inside := d.inside
  separate := d.separate
  allows _ := d.Suits
  holds details disk phase := ∃ mem : details ∈ d.files, (d.target details mem).Holds disk phase
  start _ mem := ⟨mem, rfl, (leftover_eq mem).2.2⟩
  reads := by
    rintro details disk disk' ⟨mem, old, left⟩ same
    exact ⟨mem, (same _).trans old, (congrArg (Option.getD · []) (same _)).trans left⟩
  keeps := by
    rintro details disk disk' phase ⟨mem, holds⟩ partial_ path
    exact ⟨mem, holds.keeps partial_ path⟩
  writes := by
    rintro details disk file queue buffered writer ⟨mem, -, -, passed, partial_, -⟩
    exact partial_.1
  resumes := by
    rintro details disk mem ⟨_, -, left⟩ positive
    have length := congrArg List.length left
    rw [Target.length_leftover] at length
    have start : 0 < details.startIndex.toNat := positive
    cases entry : disk.entries details.partialPath with
    | none =>
        rw [FileSystem.read, target, entry] at length
        exact absurd length.symm start.ne'
    | some node =>
        rw [FileSystem.exists_, entry]
        rfl
  passes := by
    rintro task shared signature contents phase ⟨mem, holds⟩ - found
    rw [phase] at holds
    obtain ⟨-, read, signed⟩ := holds
    cases read.symm.trans found
    exact d.signed _ mem signature signed
  unremoved := by
    rintro details disk ⟨mem, holds⟩
    exact holds
  step := by
    rintro task task' shared shared' action mem apart ⟨_, holds⟩ suits stepped
    exact ⟨mem, Target.holds_move (WriterTask.step_cases stepped) rfl holds apart
      (d.inside _ (Reception.partialPath_working mem)) (d.inside _ (Reception.path_working mem))
      (fed_of_suits suits mem)⟩

variable {s : State Fifo}

theorem allows_of_fed {action : Action} (fed : d.Fed s action) : d.perFile.Allows s action := by
  cases action with
  | task index action => exact fed
  | sender | senderExit | receiver | receiverExit => trivial

/-- In every run of the transfer what the disk has of the files holds. -/
theorem delivers (reached : d.machine.ReachableVia d.Fed s) :
    d.perFile.Holds s.tasks s.shared.disk :=
  (PerFile.reached (reached.mono fun _ _ => allows_of_fed)).1.holds

/-- With or without a task, the path of a file is as before or has the source. -/
theorem old_or_new (reached : d.machine.ReachableVia d.Fed s) (mem : details ∈ d.files) :
    s.shared.disk.read details.path = d.disk.read details.path ∨
      s.shared.disk.read details.path = some (d.source details.id) := by
  obtain ⟨_, holds⟩ | ⟨task, -, rfl, _, holds⟩ := (delivers reached).exists_phase mem
  · exact .inl holds.1
  · exact holds.old_or_new

/-- When the sender finishes, every file has arrived or its only attempt has failed. -/
theorem arrived_of_finishing (reached : d.machine.ReachableVia d.Fed s)
    (finishing : s.sender.pc = .finishing) {id : UInt32} (listed : id ∈ d.cfg.manifest.files)
    (incomplete : id ∉ s.sender.completed) :
    ∃ task, s.tasks.filter (fun task => decide (task.id = id)) = [task] ∧
      task.details ∈ d.files ∧ (task.phase = .finished (.failed false) ∨
        s.shared.disk.read task.details.path = some (d.source id)) := by
  obtain ⟨task, only, mem, rfl, ⟨_, holds⟩, ended⟩ :=
    PerFile.ended_of_finishing (reached.mono fun _ _ => allows_of_fed) finishing listed incomplete
  refine ⟨task, only, mem, ended.imp_right fun renamed => ?_⟩
  rw [renamed] at holds
  exact holds

/-- **Delivery.**  In every run of the transfer every path has what it had before or all of
its source.  When the sender's controller is about to write `Done(2)`, every file that was
not completed before has arrived, or the error of its only attempt has been reported. -/
theorem destination_delivered (d : Delivery) {s : State Fifo}
    (reached : d.machine.ReachableVia d.Fed s) :
    (∀ details ∈ d.files, s.shared.disk.read details.path = d.disk.read details.path ∨
      s.shared.disk.read details.path = some (d.source details.id)) ∧
    (s.sender.pc = .finishing → ∀ id ∈ d.cfg.manifest.files, id ∉ s.sender.completed →
      ∃ task, s.tasks.filter (fun task => decide (task.id = id)) = [task] ∧
        task.details ∈ d.files ∧ (task.phase = .finished (.failed false) ∨
          s.shared.disk.read task.details.path = some (d.source id))) := by
  constructor
  · intro details mem
    exact old_or_new reached mem
  · intro finishing id listed incomplete
    exact arrived_of_finishing reached finishing listed incomplete

end Delivery

/-! ## A run of one file that is there already -/

/-- A transfer of one file of two bytes. -/
def twoBytes : Config where
  manifest :=
    { directories := []
      files := AList.singleton 0 ⟨[102], 2, some [7, 8], ⟨0, [], []⟩⟩ }
  max := 1
  options := ⟨[.normal [100]], true, true, false⟩
  dirLen := fun _ => 0
  force := true
  crates := ⟨⟨fun _ _ _ _ => 0, fun _ => none⟩, fun bytes => bytes⟩

/-- The destination, with a file that is to be overwritten. -/
def oldDisk : FileSystem Path where
  entries path :=
    if path = [.normal [100]] then some .dir
    else if path = [.normal [100], .normal [102]] then some (.file 0)
    else none
  contents _ := [1]
  fresh := 1

def oldDetails : FileDetails where
  id := 0
  path := [.normal [100], .normal [102]]
  partialPath := [.normal [100], .normal ([102] ++ partialSuffix)]
  size := 2
  startIndex := 0
  signature := some [7, 8]
  crypto := ⟨0, [], []⟩

/-- Only one of the names denotes a file. -/
theorem oldDisk_entries {path : Path} {inode : Nat}
    (named : oldDisk.entries path = some (.file inode)) :
    path = oldDetails.path ∧ inode = 0 := by
  unfold oldDisk at named
  dsimp only at named
  split at named
  next => cases named
  next =>
    split at named
    next same =>
      cases named
      exact ⟨same, rfl⟩
    next => cases named

theorem oldDisk_apart (names : Path → Prop) : Apart oldDisk names :=
  ⟨fun _ _ _ _ apart _ named named' =>
    apart ((oldDisk_entries named).1.trans (oldDisk_entries named').1.symm),
    fun _ _ _ named => (oldDisk_entries named).2 ▸ Nat.zero_lt_one⟩

def overwritten : Delivery where
  cfg := twoBytes
  disk := oldDisk
  source _ := [7, 8]
  keystream _ := fun _ => 0
  files := [oldDetails]
  prepared := by decide +kernel
  whole := by
    intro details mem
    obtain rfl := List.mem_singleton.mp mem
    rfl
  signed := by
    intro details mem signature same
    obtain rfl := List.mem_singleton.mp mem
    exact Option.some.inj same
  keyed := by
    intro details mem cipher made
    obtain rfl := List.mem_singleton.mp mem
    cases made
    rfl
  distinct := by decide +kernel
  names _ := True
  inside _ _ := trivial
  separate := oldDisk_apart _
  undirected := by
    intro details mem
    obtain rfl := List.mem_singleton.mp mem
    decide
  leftover := by
    intro details mem bytes read
    obtain rfl := List.mem_singleton.mp mem
    cases read

/-- The only chunk of the file. -/
def onlyJob : Receiver.Job := ⟨[7, 8], 0⟩

/-- The sender finishes, and all writers have renamed their files. -/
def arrives (s : State Fifo) : Bool :=
  finishes s && s.tasks.all fun task =>
    match task.phase with
    | .finished .renamed => true
    | _ => false

def deliversJob (action : Action) : Bool :=
  match action with
  | .task _ (.job job _) => decide (job = onlyJob)
  | .task _ (.jobFail ..) => false
  | _ => true

/-- The job is what the source and the keystream of the file make it. -/
theorem fed_of_deliversJob {d : Session} {s : State Fifo} {action : Action}
    (source : d.source = fun _ => [7, 8]) (keystream : d.keystream = fun _ _ => 0)
    (delivers : deliversJob action = true) : d.Fed s action := by
  cases action with
  | task index action =>
      intro task _
      cases action with
      | job job passed =>
          have carries : onlyJob.index.toNat < ([7, 8] : Bytes).length ∧
              CarriesData [7, 8] (fun _ => 0) onlyJob := by
            unfold CarriesData
            decide +kernel
          have feeds : d.Feeds task.id job := by
            rw [of_decide_eq_true delivers, Session.Feeds, source, keystream]
            exact ⟨Nat.dvd_zero _, carries⟩
          exact feeds
      | jobFail job passed error => cases delivers
      | proceed | fail => trivial
  | sender | senderExit | receiver | receiverExit => trivial

theorem finishing_of_arrives {s : State Fifo} (ends : arrives s = true) :
    s.sender.pc = .finishing ∧ s.sender.completed = [] ∧
      ∀ task ∈ s.tasks, task.phase ≠ .finished (.failed false) := by
  obtain ⟨ends, renamed⟩ := Bool.and_eq_true_iff.mp ends
  obtain ⟨finishing, completed⟩ := Bool.and_eq_true_iff.mp ends
  refine ⟨?_, List.isEmpty_iff.mp completed, fun task there failed => ?_⟩
  · split at finishing
    next pc => exact pc
    next => cases finishing
  · have renamed := List.all_eq_true.mp renamed task there
    rw [failed] at renamed
    cases renamed

/-- The file replaces the old one before the sender finishes. -/
theorem destination_delivered_overwritten : ∃ s, overwritten.machine.Reachable s ∧
    s.sender.pc = .finishing ∧ oldDisk.read oldDetails.path = some [1] ∧
    s.shared.disk.read oldDetails.path = some [7, 8] := by
  obtain ⟨s, reached, ends⟩ := @Machine.reachableVia_of_test _ _ overwritten.machine _ rfl
    (startedOnce ++ List.replicate 3 (.task 0 .proceed) ++ [.task 0 (.job onlyJob 1)] ++
      List.replicate 5 (.task 0 .proceed) ++ [.sender, .sender])
    (fun _ action => deliversJob action) arrives (by decide +kernel)
  obtain ⟨finishing, completed, renamed⟩ := finishing_of_arrives ends
  have fed : overwritten.machine.ReachableVia overwritten.Fed s :=
    reached.mono fun s action => fed_of_deliversJob rfl rfl
  obtain ⟨-, arrived⟩ := Delivery.destination_delivered overwritten fed
  obtain ⟨task, only, mem, ended⟩ := arrived finishing 0 (by decide) (by
    rw [completed]
    exact List.not_mem_nil)
  have there : task ∈ s.tasks := List.mem_of_mem_filter (only ▸ List.mem_singleton_self task)
  have read := ended.resolve_left (renamed task there)
  rw [List.mem_singleton.mp mem] at read
  exact ⟨s, reached.reachable, finishing, rfl, read⟩

end Control

end Cccp
