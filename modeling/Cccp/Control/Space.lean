import Cccp.Control.PerFile
import Cccp.Leftover

/-!
# Space

Unless it is forced to, `receiver::main` goes on only where the disk has as much free space as
there is to receive.  What is free is measured at the first parent of the destination that exists
(`parentPath`), what is to be received adds up in a counter that wraps (`totalData`).

`Room` is what a file takes at every operation of its task, whatever jobs the task takes in.
`space_bounded` is what follows for all files: they never take more than was there and was free.
-/

namespace Cccp

namespace Path

def isAbsolute (path : Path) : Bool :=
  path.head? == some .rootDir

/-- The root has no parent. -/
def parent (path : Path) : Option Path :=
  match path.getLast? with
  | some .rootDir | none => none
  | some _ => some path.dropLast

end Path

namespace Control

open FileSystem (Apart Keeps)

/-! ## The check of the receiver -/

/-- What `statvfs` tells of the file system of a path. -/
structure Statvfs where
  blocksAvailable : UInt64
  fragmentSize : UInt64

/-- What the receiver asks the operating system. -/
structure Volume where
  currentDir : Option Path
  statvfs : Path → Option Statvfs

/-- The loop of `parent_path`; every round takes a component off the path. -/
def firstExisting (disk : FileSystem Path) : Nat → Path → Option Path
  | 0, path => if disk.exists_ path then some path else none
  | rounds + 1, path =>
      if disk.exists_ path then some path
      else path.parent.bind (firstExisting disk rounds)

/-- The path of the first parent that exists. -/
def parentPath (volume : Volume) (disk : FileSystem Path) (path : Path) : Option Path :=
  let absolute := if path.isAbsolute then some path else volume.currentDir.map (·.join path)
  absolute.bind fun path => firstExisting disk path.length path

/-- The free space in bytes for the path. -/
def freeSpace (volume : Volume) (disk : FileSystem Path) (path : Path) : Option UInt64 :=
  (parentPath volume disk path).bind fun parent =>
    (volume.statvfs parent).map fun stat => stat.blocksAvailable * stat.fragmentSize

/-- The counter of the bytes that are still to be received. -/
def totalData (files : List FileDetails) : UInt64 :=
  files.foldl (fun total details => total + (details.size - details.startIndex)) 0

/-- Whether there is enough space, or `none` where it cannot be told. -/
def hasSpace (volume : Volume) (options : ReceiverOptions) (disk : FileSystem Path)
    (files : List FileDetails) : Option Bool :=
  (freeSpace volume disk options.destination).map fun free => !decide (free < totalData files)

/-- The receiver goes by what it has measured. -/
def Measured (cfg : Config) (volume : Volume) (s : State Fifo) : Action → Prop
  | .receiver space => ∀ manifest files, s.receiver.pc = .preparing manifest →
      preparedFiles cfg.options (diskView cfg.dirLen s.shared.disk) manifest = some files →
        hasSpace volume cfg.options s.shared.disk files = some space
  | _ => True

/-- What is found exists, is the path or one of its parents, and is the first of these. -/
theorem firstExisting_eq {disk : FileSystem Path} {rounds : Nat} {path found : Path}
    (first : firstExisting disk rounds path = some found) :
    disk.exists_ found = true ∧ found <+: path ∧
      ∀ longer, longer <+: path → found.length < longer.length → disk.exists_ longer = false := by
  have here : ∀ path, disk.exists_ path = true → disk.exists_ path = true ∧ path <+: path ∧
      ∀ longer, longer <+: path → path.length < longer.length → disk.exists_ longer = false :=
    fun path there => ⟨there, List.prefix_rfl, fun longer is_prefix more =>
      absurd is_prefix.length_le (Nat.not_le_of_lt more)⟩
  induction rounds generalizing path with
  | zero =>
      rw [firstExisting] at first
      split at first
      next there =>
        cases first
        exact here _ there
      next => cases first
  | succ rounds ih =>
      rw [firstExisting] at first
      split at first
      next there =>
        cases first
        exact here _ there
      next absent =>
        obtain ⟨parent, has, first⟩ := Option.bind_eq_some_iff.mp first
        have shorter : parent = path.dropLast := by
          unfold Path.parent at has
          split at has
          next => cases has
          next => cases has
          next => exact (Option.some.inj has).symm
        obtain ⟨there, is_prefix, none_⟩ := ih first
        rw [shorter] at is_prefix none_
        refine ⟨there, is_prefix.trans (List.dropLast_prefix path), fun longer is_prefix' more => ?_⟩
        rcases Nat.lt_or_ge longer.length path.length with less | full
        · refine none_ longer ?_ more
          refine List.prefix_of_prefix_length_le is_prefix' (List.dropLast_prefix path) ?_
          rw [List.length_dropLast]
          omega
        · rw [is_prefix'.eq_of_length_le full]
          exact Bool.eq_false_iff.mpr absent

/-! ## What a file takes -/

/-- The bytes of the file at a path. -/
def bytesAt (disk : FileSystem Path) (path : Path) : Nat :=
  ((disk.read path).getD []).length

/-- The bytes of a file and of its partial file. -/
def taken (disk : FileSystem Path) (details : FileDetails) : Nat :=
  bytesAt disk details.path + bytesAt disk details.partialPath

/-- The bytes of a file that are still to be received. -/
def missing (details : FileDetails) : Nat :=
  (details.size - details.startIndex).toNat

/-- What a file takes, compared with the disk at first. -/
def Room (first : FileSystem Path) (details : FileDetails) (disk : FileSystem Path) : Phase → Prop
  | .opening => disk.read details.path = first.read details.path ∧
      disk.read details.partialPath = first.read details.partialPath
  | .seeking file => disk.entries details.partialPath = some (.file file) ∧
      taken disk details ≤ taken first details
  | .subscribing file writer => disk.entries details.partialPath = some (.file file) ∧
      taken disk details ≤ taken first details ∧ writer.position = details.startIndex
  | .receiving file _ buffered writer =>
      disk.entries details.partialPath = some (.file file) ∧ writer.Within details.size ∧
        taken disk details + buffered.length + details.startIndex.toNat ≤
          taken first details + writer.position.toNat
  | .notifying | .removing => False
  | _ => taken disk details ≤ taken first details + missing details

variable {r : Reception} {first disk disk' : FileSystem Path} {details : FileDetails}
  {phase : Phase} {shared shared' : Shared} {task task' : WriterTask} {action : TaskAction}

theorem taken_of_read (path : disk'.read details.path = disk.read details.path)
    (partial_ : disk'.read details.partialPath = disk.read details.partialPath) :
    taken disk' details = taken disk details := by
  rw [taken, taken, bytesAt, bytesAt, path, partial_]
  rfl

theorem toNat_missing (resumable : details.startIndex ≤ details.size) :
    missing details + details.startIndex.toNat = details.size.toNat := by
  rw [missing, UInt64.toNat_sub_of_le _ _ resumable]
  exact Nat.sub_add_cancel (UInt64.le_iff_toNat_le.mp resumable)

/-- Whatever its task does next, a file takes no more than is missing. -/
theorem Room.le (room : Room first details disk phase)
    (resumable : details.startIndex ≤ details.size) :
    taken disk details ≤ taken first details + missing details := by
  have exact_ := toNat_missing resumable
  cases phase with
  | opening => exact Nat.le_add_right_of_le (taken_of_read room.1 room.2).le
  | seeking file => exact Nat.le_add_right_of_le room.2
  | subscribing file writer => exact Nat.le_add_right_of_le room.2.1
  | receiving file queue buffered writer =>
      obtain ⟨-, within, room⟩ := room
      unfold Writer.Within at within
      omega
  | notifying | removing => exact absurd room id
  | popping | hashing | moving | ending | failing | finished | panicked => exact room

theorem Room.keeps (room : Room first details disk phase)
    (partial_ : Keeps disk disk' details.partialPath) (path : Keeps disk disk' details.path) :
    Room first details disk' phase := by
  have same : taken disk' details = taken disk details := taken_of_read path.read partial_.read
  cases phase with
  | opening => exact ⟨path.read.trans room.1, partial_.read.trans room.2⟩
  | seeking file => exact ⟨partial_.entry.trans room.1, same ▸ room.2⟩
  | subscribing file writer => exact ⟨partial_.entry.trans room.1, same ▸ room.2⟩
  | receiving file queue buffered writer =>
      exact ⟨partial_.entry.trans room.1, room.2.1, same ▸ room.2.2⟩
  | notifying | removing => exact room
  | popping | hashing | moving | ending | failing | finished | panicked => exact same.trans_le room

/-! ### Steps -/

/-- What is written is what more is taken. -/
theorem taken_append {names : Path → Prop} {file : Nat} (apart : Apart disk names)
    (mem : names details.partialPath) (mem' : names details.path)
    (ne : details.path ≠ details.partialPath)
    (named : disk.entries details.partialPath = some (.file file)) (bytes : Bytes) :
    taken (disk.append file bytes) details = taken disk details + bytes.length := by
  have path := (apart.keeps_append mem mem' named ne bytes).read
  have written : (disk.append file bytes).read details.partialPath =
      some (disk.contents file ++ bytes) := by
    rw [FileSystem.read_of_entries (by exact named), FileSystem.contents_append]
  rw [taken, taken, bytesAt, bytesAt, bytesAt, bytesAt, path, written,
    FileSystem.read_of_entries named, Option.getD_some, Option.getD_some, List.length_append,
    Nat.add_assoc]

/-- A round holds back no more than it advances. -/
theorem length_buffer {size : UInt64} {writer : Writer} (within : writer.Within size)
    (buffered : Bytes) (job : Receiver.Job) :
    (WriterTask.buffer buffered writer (writer.handle size job)).length +
        writer.position.toNat ≤
      buffered.length + (writer.handle size job).position.toNat := by
  have advance := Writer.length_output_handle within job
  have grows := (Writer.output_handle size writer job).length_le
  rw [WriterTask.buffer, List.length_append, List.length_drop]
  omega

theorem room_step {names : Path → Prop} {crates : Crates}
    (resumable : task.details.startIndex ≤ task.details.size)
    (ne : task.details.path ≠ task.details.partialPath) (apart : Apart shared.disk names)
    (mem : names task.details.partialPath) (mem' : names task.details.path)
    (room : Room first task.details shared.disk task.phase)
    (passes : ∀ signature contents, action = .proceed → task.phase = .hashing signature →
      shared.disk.read task.details.partialPath = some contents → crates.hash contents = signature)
    (stepped : task.step crates shared action = some (shared', task')) :
    Room first task.details shared'.disk task'.phase := by
  have move : task.Move crates shared action shared' task' := WriterTask.step_cases stepped
  have exact_ := toNat_missing resumable
  have written : ∀ {file : Nat}, shared.disk.entries task.details.partialPath = some (.file file) →
      ∀ bytes, taken (shared.disk.append file bytes) task.details =
        taken shared.disk task.details + bytes.length :=
    fun named bytes => taken_append apart mem mem' ne named bytes
  -- a part of what the task holds, or will hold after a round, is written
  have atMost : ∀ {file : Nat} {buffered : Bytes} {writer : Writer},
      shared.disk.entries task.details.partialPath = some (.file file) →
      writer.Within task.details.size →
      taken shared.disk task.details + buffered.length + task.details.startIndex.toNat ≤
        taken first task.details + writer.position.toNat →
      ∀ bytes, (bytes <+: buffered ∨ ∃ job, bytes <+: WriterTask.buffer buffered writer
        (writer.handle task.details.size job)) →
      taken (shared.disk.append file bytes) task.details ≤
        taken first task.details + missing task.details := by
    intro file buffered writer named within room bytes held
    have more := written named bytes
    rcases held with held | ⟨job, held⟩
    · have short := held.length_le
      unfold Writer.Within at within
      omega
    · have short := held.length_le
      have advance := length_buffer within buffered job
      have inside := within.handle job
      unfold Writer.Within at inside
      omega
  cases move with
  | @opened file disk phase opened =>
      rw [phase] at room
      have path := (FileSystem.keeps_openAppend opened ne (apart.made _ mem')).read
      have named := FileSystem.entries_openAppend opened
      have same : taken disk task.details = taken first task.details := by
        rw [taken, taken, bytesAt, bytesAt, bytesAt, bytesAt, path, room.1,
          FileSystem.read_of_entries named, FileSystem.contents_openAppend opened, room.2]
        rfl
      exact ⟨named, same.le⟩
  | seeked phase made _ =>
      rw [phase] at room
      exact ⟨room.1, room.2, rfl⟩
  | subscribed phase registered =>
      rw [phase] at room
      obtain ⟨named, room, start⟩ := room
      have within : Writer.Within task.details.size _ := start ▸ UInt64.le_iff_toNat_le.mp resumable
      refine ⟨named, within, ?_⟩
      rw [start]
      exact Nat.add_le_add_right room _
  | @received file queue buffered writer phase running job _ passed =>
      rw [phase] at room
      obtain ⟨named, within, room⟩ := room
      refine ⟨named, within.handle job, ?_⟩
      have held := length_buffer within buffered job
      have split := congrArg List.length (List.take_append_drop passed
        (WriterTask.buffer buffered writer (writer.handle task.details.size job)))
      rw [List.length_append] at split
      have more := written named ((WriterTask.buffer buffered writer
        (writer.handle task.details.size job)).take passed)
      simp only [Shared.setDisk]
      omega
  | @flushed file queue buffered writer phase complete =>
      rw [phase] at room
      obtain ⟨named, within, room⟩ := room
      rw [complete] at room
      have more := written named buffered
      have enough : taken (shared.disk.append file buffered) task.details ≤
          taken first task.details + missing task.details := by
        omega
      exact enough
  | popped phase =>
      rw [phase] at room
      cases signature : task.details.signature with
      | none => exact room
      | some signature => exact room
  | verified phase read same =>
      rw [phase] at room
      exact room
  | mismatched phase read differs => exact absurd (passes _ _ rfl phase read) differs
  | notified phase | removed phase | unremoved phase =>
      rw [phase] at room
      exact absurd room id
  | @moved disk phase renamed =>
      rw [phase] at room
      have gone : disk.read task.details.partialPath = none := by
        rw [FileSystem.read, FileSystem.entries_rename_source renamed ne.symm]
      have less : taken disk task.details ≤ taken shared.disk task.details := by
        rw [taken, taken, bytesAt, bytesAt, bytesAt, bytesAt, FileSystem.read_rename renamed, gone]
        exact Nat.le_add_left _ _
      exact less.trans room
  | ended phase =>
      rw [phase] at room
      exact room
  | reported phase =>
      rw [phase] at room
      exact room
  | keyPanicked | seekPanicked | sendPanicked => exact room.le resumable
  | @keystreamPanicked file queue buffered writer phase running job _ passed kept =>
      rw [phase] at room
      obtain ⟨named, within, room⟩ := room
      exact atMost named within room _ (.inr ⟨job, List.take_prefix _ _⟩)
  | @writeFailed _ file queue buffered writer phase bytes error =>
      obtain ⟨bytes, same, held⟩ := Target.written_of_failed phase stepped rfl
      rw [phase] at room
      obtain ⟨named, within, room⟩ := room
      have held : bytes <+: buffered ∨ ∃ job, bytes <+: WriterTask.buffer buffered writer
          (writer.handle task.details.size job) := by
        rcases held with held | ⟨job, -, -, held⟩
        · exact .inl held
        · exact .inr ⟨job, held⟩
      have enough := atMost named within room bytes held
      have goal : taken (shared.setDisk _).disk task.details ≤
          taken first task.details + missing task.details := same ▸ enough
      exact goal
  | failed => exact room.le resumable

/-! ## All files -/

/-- What all files take. -/
def takes (files : List FileDetails) (disk : FileSystem Path) : Nat :=
  (files.map (taken disk)).sum

/-- The counter is right, if it does not wrap. -/
theorem toNat_totalData {files : List FileDetails} (fits : (files.map missing).sum < 2 ^ 64) :
    (totalData files).toNat = (files.map missing).sum := by
  have general : ∀ total : UInt64, total.toNat + (files.map missing).sum < 2 ^ 64 →
      (files.foldl (fun total details => total + (details.size - details.startIndex)) total).toNat =
        total.toNat + (files.map missing).sum := by
    clear fits
    induction files with
    | nil => exact fun total _ => rfl
    | cons first rest ih =>
        intro total fits
        rw [List.map_cons, List.sum_cons] at fits ⊢
        have sum : (total + (first.size - first.startIndex)).toNat =
            total.toNat + missing first := by
          have below : total.toNat + missing first < 2 ^ 64 := by omega
          rw [UInt64.toNat_add]
          exact Nat.mod_eq_of_lt below
        rw [List.foldl_cons, ih _ (by omega), sum, Nat.add_assoc]
  rw [totalData, general 0 (by simpa using fits)]
  exact Nat.zero_add _

theorem takes_le {files : List FileDetails}
    (each : ∀ details ∈ files, taken disk details ≤ taken first details + missing details) :
    takes files disk ≤ takes files first + (files.map missing).sum := by
  rw [takes, takes, ← List.sum_map_add]
  exact List.sum_le_sum each

namespace Reception

/-- What is known of a file is what it takes. -/
def room (r : Reception) (separate : Apart r.disk r.Working)
    (undirected : ∀ details ∈ r.files, r.disk.entries details.partialPath ≠ some .dir)
    (resumable : ∀ details ∈ r.files, details.startIndex ≤ details.size) : PerFile r where
  names := r.Working
  inside _ working := working
  separate := separate
  allows shared task action := ∀ signature contents, action = .proceed →
    task.phase = .hashing signature → shared.disk.read task.details.partialPath = some contents →
      r.cfg.crates.hash contents = signature
  holds := Room r.disk
  start _ _ := ⟨rfl, rfl⟩
  reads room same := ⟨(same _).trans room.1, (same _).trans room.2⟩
  keeps := Room.keeps
  writes room := room.1
  resumes := by
    intro details disk mem room positive
    rw [startIndex_of_prepared r.prepared mem, diskView] at positive
    cases entry : r.disk.entries details.partialPath with
    | none =>
        rw [entry] at positive
        cases positive
    | some node =>
        cases node with
        | dir => exact absurd entry (undirected details mem)
        | file inode =>
            have read := room.2.trans (FileSystem.read_of_entries entry)
            rw [FileSystem.exists_]
            cases found : disk.entries details.partialPath with
            | none =>
                rw [FileSystem.read, found] at read
                cases read
            | some node => rfl
  passes phase _ passes read := passes _ _ rfl phase read
  unremoved room := room
  step mem apart room passes stepped :=
    room_step (resumable _ mem) (path_ne_partialPath mem mem) apart (partialPath_working mem)
      (path_working mem) room passes stepped

variable {s s' : State Fifo} {volume : Volume}

/-- In every run in which no check fails each file takes no more than is missing. -/
theorem takes_reached (separate : Apart r.disk r.Working)
    (undirected : ∀ details ∈ r.files, r.disk.entries details.partialPath ≠ some .dir)
    (resumable : ∀ details ∈ r.files, details.startIndex ≤ details.size)
    (reached : r.machine.ReachableVia (fun s action => ∀ id, ¬ FailsCheck r.cfg id s action) s) :
    takes r.files s.shared.disk ≤ takes r.files r.disk + (r.files.map missing).sum := by
  have run : r.machine.ReachableVia (r.room separate undirected resumable).Allows s := by
    refine reached.mono fun s action passes => ?_
    cases action with
    | task index action =>
        rintro task here signature contents rfl phase read
        by_contra differs
        refine passes task.id ?_
        simp only [FailsCheck, failedCheck, here, Option.bind_some, phase, read, if_neg differs]
    | sender | senderExit | receiver | receiverExit => trivial
  refine takes_le fun details mem => ?_
  obtain ⟨phase, room⟩ : ∃ phase, Room r.disk details s.shared.disk phase := by
    obtain room | ⟨task, -, rfl, room⟩ := (PerFile.reached run).1.holds.exists_phase mem
    · exact ⟨.opening, room⟩
    · exact ⟨task.phase, room⟩
  exact room.le (resumable _ mem)

/-- Nothing has been received, and the receiver is to measure the space or has returned. -/
structure Untouched (r : Reception) (s : State Fifo) : Prop where
  tasks : s.tasks = []
  disk : s.shared.disk = r.disk
  early : s.receiver.pc = .awaitingManifest ∨ (∃ manifest, s.receiver.pc = .preparing manifest) ∨
    s.receiver.pc = .returned

/-- A receiver that has found too little space returns. -/
theorem noSpace_step {cfg : Config} {manifest : Manifest} {files : List FileDetails}
    (pc : s.receiver.pc = .preparing manifest)
    (prepared : preparedFiles cfg.options (diskView cfg.dirLen s.shared.disk) manifest = some files)
    (unforced : cfg.force = false) (next : receiverStep cfg fifo false s = some s') :
    s'.receiver.pc = .returned ∧ s'.tasks = s.tasks ∧ s'.shared = s.shared := by
  simp only [receiverStep, pc, prepared, unforced, Bool.not_false, Bool.and_self, if_true] at next
  cases next
  exact ⟨rfl, rfl, rfl⟩

/-- With too little space nothing is received. -/
theorem untouched_reached (unforced : r.cfg.force = false)
    (short : hasSpace volume r.cfg.options r.disk r.files ≠ some true)
    (reached : r.machine.ReachableVia (Measured r.cfg volume) s) : r.Untouched s := by
  refine @Machine.ReachableVia.invariant _ _ _ _ r.Untouched ?_ ?_ _ reached
  · rintro s rfl
    exact ⟨rfl, rfl, .inl rfl⟩
  · rintro s action s' reached ⟨tasks, disk, early⟩ measured next
    have agreed := agreed_reached (ideal_of_machine reached).reachable
    cases action with
    | sender =>
        cases @step_cases r.cfg _ _ _ next with
        | sender alive move =>
            obtain ⟨tasks', receiver, disk'⟩ := move.frame
            exact ⟨tasks'.trans tasks, disk'.trans disk, receiver ▸ early⟩
    | senderExit =>
        cases @step_cases r.cfg _ _ _ next with
        | senderExit => exact ⟨tasks, disk, early⟩
    | receiverExit =>
        cases @step_cases r.cfg _ _ _ next with
        | receiverExit => exact ⟨tasks, disk, early⟩
    | task index action =>
        obtain ⟨task, _, _, here, -, -⟩ := PerFile.step_task next
        rw [tasks] at here
        cases here
    | receiver space =>
        simp only [machine, step] at next
        split at next
        next =>
          rcases early with pc | ⟨manifest, pc⟩ | pc
          · cases receiverStep_cases next with
            | manifest => exact ⟨tasks, disk, .inr (.inl ⟨_, rfl⟩)⟩
            | nothing => exact ⟨tasks, disk, .inr (.inr rfl)⟩
            | stopped => exact ⟨tasks, disk, .inr (.inr rfl)⟩
            | completed pc' | noSpace pc' | setUp pc' | start pc' | unknown pc' | done pc'
            | reply pc' | push pc' | spawn pc' | unprepared pc' => cases pc.symm.trans pc'
          · obtain ⟨-, rfl, -⟩ := Handshake.of_preparing (pc ▸ agreed.handshake)
            have prepared := r.prepared
            rw [← disk] at prepared short
            have found := measured _ _ pc prepared
            cases space with
            | true => exact absurd found short
            | false =>
                obtain ⟨returned, tasks', shared⟩ := noSpace_step pc prepared unforced next
                exact ⟨tasks'.trans tasks, (congrArg Shared.disk shared).trans disk,
                  .inr (.inr returned)⟩
          · simp only [receiverStep, pc] at next
            cases next
        next => cases next

/-- **Space.**  Unless it is forced to, a receiver writes nothing where there is too little
space, and it never takes more than its files took before and was free when it measured, as
long as no signature check fails: whatever jobs its tasks take in, however far they get and
wherever they fail. -/
theorem space_bounded (separate : Apart r.disk r.Working)
    (undirected : ∀ details ∈ r.files, r.disk.entries details.partialPath ≠ some .dir)
    (resumable : ∀ details ∈ r.files, details.startIndex ≤ details.size)
    (fits : (r.files.map missing).sum < 2 ^ 64) (unforced : r.cfg.force = false)
    (reached : r.machine.ReachableVia (fun s action => Measured r.cfg volume s action ∧
      ∀ id, ¬ FailsCheck r.cfg id s action) s) :
    (hasSpace volume r.cfg.options r.disk r.files ≠ some true →
      s.tasks = [] ∧ s.shared.disk = r.disk) ∧
    takes r.files s.shared.disk ≤ takes r.files r.disk +
      ((freeSpace volume r.disk r.cfg.options.destination).map UInt64.toNat).getD 0 := by
  have measured := reached.mono fun _ _ ok => ok.1
  refine ⟨fun short => ?_, ?_⟩
  · have untouched := untouched_reached unforced short measured
    exact ⟨untouched.tasks, untouched.disk⟩
  · by_cases enough : hasSpace volume r.cfg.options r.disk r.files = some true
    · obtain ⟨free, measured, found⟩ := Option.map_eq_some_iff.mp enough
      have total : ¬ free < totalData r.files := by simpa using found
      rw [UInt64.lt_iff_toNat_lt, toNat_totalData fits] at total
      have bound := takes_reached separate undirected resumable (reached.mono fun _ _ ok => ok.2)
      rw [measured, Option.map_some, Option.getD_some]
      omega
    · rw [(untouched_reached unforced enough measured).disk]
      exact Nat.le_add_right _ _

end Reception

/-! ## A destination that is yet to be made -/

/-- The conditions of `space_bounded` on the steps, computed. -/
def measures (cfg : Config) (volume : Volume) (s : State Fifo) (action : Action) : Bool :=
  (failedCheck cfg s action).isNone &&
    match action, s.receiver.pc with
    | .receiver space, .preparing manifest =>
        match preparedFiles cfg.options (diskView cfg.dirLen s.shared.disk) manifest with
        | some files => decide (hasSpace volume cfg.options s.shared.disk files = some space)
        | none => true
    | _, _ => true

theorem measures_sound {cfg : Config} {volume : Volume} {s : State Fifo} {action : Action}
    (passes : measures cfg volume s action = true) :
    Measured cfg volume s action ∧ ∀ id, ¬ FailsCheck cfg id s action := by
  obtain ⟨checks, found⟩ := Bool.and_eq_true_iff.mp passes
  constructor
  · cases action with
    | receiver space =>
        intro manifest files pc prepared
        simp only [pc, prepared] at found
        exact of_decide_eq_true found
    | sender | senderExit | receiverExit | task => trivial
  · intro id fails
    rw [fails] at checks
    cases checks

/-- A file of two bytes, for a directory that does not exist. -/
def twoBytesToNew : Config where
  manifest :=
    { directories := []
      files := AList.singleton 0 ⟨[102], 2, none, ⟨0, [], []⟩⟩ }
  max := 1
  options := ⟨[.rootDir, .normal [100]], true, true, false⟩
  dirLen := fun _ => 0
  force := false
  crates := ⟨⟨fun _ _ _ _ => 0, fun _ => none⟩, fun bytes => bytes⟩

def rootDisk : FileSystem Path where
  entries path := if path = [.rootDir] then some .dir else none
  contents _ := []
  fresh := 0

/-- Four bytes are free. -/
def smallVolume : Volume where
  currentDir := none
  statvfs path := if path = [.rootDir] then some ⟨2, 2⟩ else none

def intoNew : Reception where
  cfg := twoBytesToNew
  disk := rootDisk
  files := [⟨0, [.rootDir, .normal [100], .normal [102]],
    [.rootDir, .normal [100], .normal ([102] ++ partialSuffix)], 2, 0, none, ⟨0, [], []⟩⟩]
  prepared := by decide +kernel
  distinct := by decide +kernel

/-- The file takes its two bytes of the four. -/
theorem space_bounded_intoNew : ∃ s, intoNew.machine.Reachable s ∧
    takes intoNew.files s.shared.disk = 2 ∧ takes intoNew.files s.shared.disk ≤ 4 := by
  obtain ⟨s, reached, took⟩ := @Machine.reachableVia_of_test _ _ intoNew.machine _ rfl
    (startedOnce ++ List.replicate 3 (.task 0 .proceed) ++ [.task 0 (.job ⟨[7, 8], 0⟩ 1)] ++
      List.replicate 4 (.task 0 .proceed))
    (measures twoBytesToNew smallVolume) (fun s => decide (takes intoNew.files s.shared.disk = 2))
    (by decide +kernel)
  refine ⟨s, reached.reachable, of_decide_eq_true took, ?_⟩
  have none_ : ∀ name inode, rootDisk.entries name ≠ some (.file inode) := by
    intro name inode named
    unfold rootDisk at named
    dsimp only at named
    split at named
    next => cases named
    next => cases named
  have separate : Apart rootDisk intoNew.Working :=
    ⟨fun name _ _ _ _ inode named => absurd named (none_ name inode),
      fun name _ inode named => absurd named (none_ name inode)⟩
  have resumable : ∀ details ∈ intoNew.files, details.startIndex ≤ details.size := by
    decide +kernel
  have undirected : ∀ details ∈ intoNew.files,
      intoNew.disk.entries details.partialPath ≠ some .dir := by
    decide +kernel
  exact (@Reception.space_bounded intoNew s smallVolume separate undirected resumable
    (by decide +kernel) rfl (reached.mono fun _ _ => measures_sound)).2

end Control

end Cccp
