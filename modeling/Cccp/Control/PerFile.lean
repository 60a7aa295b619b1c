import Cccp.Control.Completion

/-!
# One file at a time

The controllers, the receiver's disk and all writer tasks together, where nothing else writes to
the disk.  `Reception` is what a receiver is to receive.  `PerFile` is what is to be known of
every file at the operations of its writer task: it holds at first, the allowed steps of the task
keep it, and so does all that leaves the paths of the file alone.  Then it is known of all files
in every run, no file is attempted twice, and all other paths keep what they have
(`PerFile.reached`).
-/

namespace Cccp

namespace Control

open FileSystem (Apart Keeps)

/-- What is received to a disk.  The working paths of the files are distinct. -/
structure Reception where
  cfg : Config
  disk : FileSystem Path
  files : List FileDetails
  prepared : preparedFiles cfg.options (diskView cfg.dirLen disk) cfg.manifest = some files
  distinct : (files.map FileDetails.path ++ files.map FileDetails.partialPath).Nodup

namespace Reception

variable {r : Reception} {details other : FileDetails}

/-- The working paths of the files. -/
def Working (r : Reception) (name : Path) : Prop :=
  name ∈ r.files.map FileDetails.path ++ r.files.map FileDetails.partialPath

/-- The machine over the disk. -/
def machine (r : Reception) : Machine (State Fifo) Action where
  init s := s = initial r.cfg r.disk ⟨[], []⟩
  step := step r.cfg fifo

/-- A run over the disk is one of the control part. -/
theorem ideal_of_machine {ok : State Fifo → Action → Prop} {s : State Fifo}
    (reached : r.machine.ReachableVia ok s) : (ideal r.cfg).ReachableVia ok s := by
  induction reached with
  | init start => exact .init ⟨r.disk, _, rfl, start⟩
  | step reached allowed next ih => exact ih.step allowed next

theorem path_working (mem : details ∈ r.files) : r.Working details.path :=
  List.mem_append_left _ (List.mem_map_of_mem mem)

theorem partialPath_working (mem : details ∈ r.files) : r.Working details.partialPath :=
  List.mem_append_right _ (List.mem_map_of_mem mem)

theorem path_ne_partialPath (mem : details ∈ r.files) (mem' : other ∈ r.files) :
    details.path ≠ other.partialPath := by
  have disjoint := (List.nodup_append.mp r.distinct).2.2
  exact disjoint _ (List.mem_map_of_mem mem) _ (List.mem_map_of_mem mem')

/-- The paths of different files are different. -/
theorem paths_ne (mem : details ∈ r.files) (mem' : other ∈ r.files) (apart : other.id ≠ details.id) :
    other.path ≠ details.path ∧ other.partialPath ≠ details.partialPath := by
  obtain ⟨paths, partials, -⟩ := List.nodup_append.mp r.distinct
  constructor
  · intro same
    exact apart (congrArg FileDetails.id (List.inj_on_of_nodup_map paths mem' mem same))
  · intro same
    exact apart (congrArg FileDetails.id (List.inj_on_of_nodup_map partials mem' mem same))

/-- The files are told apart by their ids. -/
theorem eq_of_id (mem : details ∈ r.files) (mem' : other ∈ r.files) (same : other.id = details.id) :
    other = details :=
  List.inj_on_of_nodup_map (nodup_preparedFiles r.prepared) mem' mem same

end Reception

/-- What is known of every file, while the steps of the tasks are allowed ones.  No two of the
names, the working paths among them, name the same file. -/
structure PerFile (r : Reception) where
  names : Path → Prop
  inside : ∀ name, r.Working name → names name
  separate : Apart r.disk names
  allows : Shared → WriterTask → TaskAction → Prop
  holds : FileDetails → FileSystem Path → Phase → Prop
  start : ∀ details ∈ r.files, holds details r.disk .opening
  reads : ∀ {details disk disk'}, holds details disk .opening →
    (∀ name, disk'.read name = disk.read name) → holds details disk' .opening
  keeps : ∀ {details disk disk' phase}, holds details disk phase →
    Keeps disk disk' details.partialPath → Keeps disk disk' details.path →
      holds details disk' phase
  /-- a task writes to the file at the partial path -/
  writes : ∀ {details disk file queue buffered writer},
    holds details disk (.receiving file queue buffered writer) →
      disk.entries details.partialPath = some (.file file)
  /-- what is resumed has been left over -/
  resumes : ∀ {details disk}, details ∈ r.files → holds details disk .opening →
    0 < details.startIndex → disk.exists_ details.partialPath = true
  /-- no signature check fails -/
  passes : ∀ {task shared signature contents}, task.phase = .hashing signature →
    holds task.details shared.disk task.phase → allows shared task .proceed →
      shared.disk.read task.details.partialPath = some contents →
        r.cfg.crates.hash contents = signature
  unremoved : ∀ {details disk}, ¬ holds details disk .removing
  step : ∀ {task task' : WriterTask} {shared shared' : Shared} {action : TaskAction},
    task.details ∈ r.files → Apart shared.disk names → holds task.details shared.disk task.phase →
      allows shared task action → task.step r.cfg.crates shared action = some (shared', task') →
        holds task.details shared'.disk task'.phase

namespace PerFile

variable {r : Reception} (P : PerFile r)

/-! ## The disk and the tasks -/

/-- What the disk has of every file, with or without a task, and of the other paths. -/
structure Holds (tasks : List WriterTask) (disk : FileSystem Path) : Prop where
  apart : Apart disk P.names
  others : ∀ name, P.names name → ¬ r.Working name → disk.read name = r.disk.read name
  idle : ∀ details ∈ r.files, (∀ task ∈ tasks, task.id ≠ details.id) →
    P.holds details disk .opening
  running : ∀ task ∈ tasks, task.details ∈ r.files ∧ P.holds task.details disk task.phase

variable {P} {details : FileDetails} {tasks : List WriterTask} {disk disk' : FileSystem Path}
  {shared shared' : Shared} {task task' : WriterTask} {index : Nat} {action : TaskAction}

theorem holds_init : P.Holds [] r.disk :=
  ⟨P.separate, fun _ _ _ => rfl, fun details mem _ => P.start details mem, nofun⟩

/-- The receiver creates its directories before it spawns a task. -/
theorem Holds.createDirectories (holds : P.Holds [] disk) {options : ReceiverOptions}
    {manifest : Manifest} (created : createDirectories options manifest disk = some disk') :
    P.Holds [] disk' := by
  rw [Cccp.createDirectories] at created
  split at created
  next =>
    have same := FileSystem.read_createMissing created
    refine ⟨holds.apart.createMissing created, fun name mem outside => ?_,
      fun details mem none_ => P.reads (holds.idle details mem none_) same, nofun⟩
    exact (same name).trans (holds.others name mem outside)
  next =>
    cases created
    exact holds

/-- A task is spawned for a file that has none. -/
theorem Holds.spawn (holds : P.Holds tasks disk) (mem : details ∈ r.files)
    (fresh : ∀ task ∈ tasks, task.id ≠ details.id) :
    P.Holds (tasks ++ [⟨details, .opening⟩]) disk := by
  refine ⟨holds.apart, holds.others, fun other mem' none_ => ?_, fun task there => ?_⟩
  · exact holds.idle other mem' fun task there => none_ task (List.mem_append_left _ there)
  · rcases List.mem_append.mp there with there | new
    · exact holds.running task there
    · obtain rfl := List.mem_singleton.mp new
      exact ⟨mem, holds.idle details mem fresh⟩

/-- A step of a task leaves the files of the other names alone. -/
theorem frame (move : task.Move r.cfg.crates shared action shared' task')
    (mem : task.details ∈ r.files) (holds : P.holds task.details shared.disk task.phase)
    (apart : Apart shared.disk P.names) :
    Apart shared'.disk P.names ∧ ∀ name, P.names name → name ≠ task.details.partialPath →
      name ≠ task.details.path → Keeps shared.disk shared'.disk name := by
  have own := P.inside _ (Reception.partialPath_working mem)
  have unchanged : Apart shared.disk P.names ∧ ∀ name, P.names name →
      name ≠ task.details.partialPath → name ≠ task.details.path →
        Keeps shared.disk shared.disk name :=
    ⟨apart, fun name _ _ _ => Keeps.refl _ _⟩
  have written : ∀ {file : Nat} {queue : Nat} {buffered : Bytes} {writer : Writer} (bytes : Bytes),
      task.phase = .receiving file queue buffered writer →
      Apart (shared.disk.append file bytes) P.names ∧ ∀ name, P.names name →
        name ≠ task.details.partialPath → name ≠ task.details.path →
          Keeps shared.disk (shared.disk.append file bytes) name := by
    intro file queue buffered writer bytes phase
    rw [phase] at holds
    exact ⟨apart.append file bytes, fun name mem' ne _ =>
      apart.keeps_append own mem' (P.writes holds) ne bytes⟩
  cases move with
  | opened phase opened =>
      exact ⟨apart.openAppend opened, fun name mem ne _ =>
        FileSystem.keeps_openAppend opened ne (apart.made name mem)⟩
  | received phase _ _ _ _ | keystreamPanicked phase _ _ _ _ _ | flushed phase _
  | writeFailed phase _ _ => exact written _ phase
  | moved phase renamed =>
      exact ⟨apart.rename own renamed, fun name _ ne ne' =>
        FileSystem.keeps_rename renamed ne ne'⟩
  | removed phase =>
      rw [phase] at holds
      exact absurd holds P.unremoved
  | seeked | subscribed | popped | verified | mismatched | notified | unremoved | ended | reported
  | keyPanicked | seekPanicked | sendPanicked | failed => exact unchanged

/-- A task takes a step, and no other task has its file. -/
theorem Holds.step (holds : P.Holds tasks shared.disk) (here : tasks[index]? = some task)
    (single : ∀ j other, tasks[j]? = some other → other.id = task.id → j = index)
    (stepped : task.step r.cfg.crates shared action = some (shared', task'))
    (allowed : P.allows shared task action) : P.Holds (tasks.set index task') shared'.disk := by
  obtain ⟨mem, own⟩ := holds.running task (List.mem_of_getElem? here)
  have move : task.Move r.cfg.crates shared action shared' task' := WriterTask.step_cases stepped
  have same := move.details_eq
  have id_eq : task'.id = task.id := congrArg FileDetails.id same
  have inside := (List.getElem?_eq_some_iff.mp here).1
  obtain ⟨apart, keeps⟩ := frame move mem own holds.apart
  have keep : ∀ {other : FileDetails} {phase : Phase}, other ∈ r.files → other.id ≠ task.id →
      P.holds other shared.disk phase → P.holds other shared'.disk phase := by
    intro other phase mem' ne holds
    obtain ⟨paths, partials⟩ := Reception.paths_ne mem mem' ne
    exact P.keeps holds
      (keeps _ (P.inside _ (Reception.partialPath_working mem')) partials
        (Reception.path_ne_partialPath mem mem').symm)
      (keeps _ (P.inside _ (Reception.path_working mem'))
        (Reception.path_ne_partialPath mem' mem) paths)
  refine ⟨apart, fun name named outside => ?_, fun other mem' none_ => ?_, fun other there => ?_⟩
  · have kept := keeps name named
      (fun is => outside (is ▸ Reception.partialPath_working mem))
      (fun is => outside (is ▸ Reception.path_working mem))
    exact kept.read.trans (holds.others name named outside)
  · have ne : other.id ≠ task.id := by
      rw [← id_eq]
      exact (none_ task' (List.mem_set inside task')).symm
    refine keep mem' ne (holds.idle other mem' fun old there own => ?_)
    obtain ⟨j, there⟩ := List.mem_iff_getElem?.mp there
    by_cases moved : j = index
    · subst moved
      cases here.symm.trans there
      exact ne own.symm
    · refine none_ old (List.mem_of_getElem? (i := j) ?_) own
      rw [List.getElem?_set_ne (Ne.symm moved)]
      exact there
  · obtain ⟨j, there⟩ := List.mem_iff_getElem?.mp there
    by_cases moved : j = index
    · subst moved
      rw [List.getElem?_set_self inside] at there
      cases there
      rw [same]
      exact ⟨mem, P.step mem holds.apart own allowed stepped⟩
    · rw [List.getElem?_set_ne (Ne.symm moved)] at there
      obtain ⟨mem', running⟩ := holds.running other (List.mem_of_getElem? there)
      exact ⟨mem', keep mem' (fun own => moved (single j other there own)) running⟩

/-- With or without a task, something is known of a file. -/
theorem Holds.exists_phase (holds : P.Holds tasks disk) (mem : details ∈ r.files) :
    P.holds details disk .opening ∨ ∃ task ∈ tasks, task.details = details ∧
      P.holds details disk task.phase := by
  by_cases idle : ∀ task ∈ tasks, task.id ≠ details.id
  · exact .inl (holds.idle details mem idle)
  · push Not at idle
    obtain ⟨task, there, own⟩ := idle
    obtain ⟨mem', running⟩ := holds.running task there
    have same := Reception.eq_of_id mem mem' own
    exact .inr ⟨task, there, same, same ▸ running⟩

/-! ## The invariant -/

/-- The attempts of `id` so far, with the one to come. -/
def attempts (id : UInt32) (s : State Fifo) : Nat :=
  tokens (fun _ => true) (fun _ => false) id s + if id ∈ s.sender.files then 1 else 0

/-- What holds at every step. -/
structure Inv (P : PerFile r) (s : State Fifo) : Prop where
  holds : P.Holds s.tasks s.shared.disk
  early : s.receiver.pc.Preparing → s.tasks = [] ∧ s.shared.disk = r.disk
  listed : ∀ id details, s.receiver.files.lookup id = some details → details ∈ r.files
  hand : ∀ details, s.receiver.pc.hand = some details → details ∈ r.files
  once : ∀ id, attempts id s ≤ 1

variable {s s' : State Fifo}

theorem inv_init (start : r.machine.init s) : P.Inv s := by
  cases start
  refine ⟨holds_init, fun _ => ⟨rfl, rfl⟩, nofun, nofun, fun id => ?_⟩
  rw [attempts]
  split <;> exact Nat.le_of_ble_eq_true rfl

/-- The steps of the tasks are allowed ones. -/
def Allows (P : PerFile r) (s : State Fifo) : Action → Prop
  | .task index action => ∀ task, s.tasks[index]? = some task → P.allows s.shared task action
  | _ => True

/-- No attempt fails its signature check. -/
theorem Holds.passes (holds : P.Holds s.tasks s.shared.disk) {action : Action}
    (allowed : P.Allows s action) (id : UInt32) : ¬ FailsCheck r.cfg id s action := by
  intro fails
  unfold FailsCheck failedCheck at fails
  split at fails
  next index =>
    obtain ⟨task, here, found⟩ := Option.bind_eq_some_iff.mp fails
    obtain ⟨mem, own⟩ := holds.running task (List.mem_of_getElem? here)
    split at found
    next signature phase =>
      obtain ⟨contents, read, found⟩ := Option.bind_eq_some_iff.mp found
      rw [if_pos (P.passes phase own (allowed task here) read)] at found
      cases found
    next => cases found
  next => cases fails

/-! ### Steps of the sender -/

/-- Where no messages count, messages make no difference. -/
theorem tokens_silent {phases : Phase → Bool} {id : UInt32} (messages : List Message) :
    tokens phases (fun _ => false) id (s.setMessages messages) =
      tokens phases (fun _ => false) id s := by
  simp only [tokens, List.countP_false]
  rfl

/-- No step of the sender makes an attempt that was not to come. -/
theorem attempts_sender {id : UInt32} (quiet : ∀ description,
      Message.failure id 0 description ∉ s.shared.messages)
    (move : SenderMove r.cfg s s') : attempts id s' ≤ attempts id s := by
  have fewer : ∀ {packets : List Packet} {sender : Sender},
      (id ∈ sender.files → id ∈ s.sender.files) →
        attempts id ((s.setToSender packets).setSender sender) ≤ attempts id s := by
    intro packets sender subset
    rw [attempts, attempts, tokens_setSender, tokens_setToSender]
    have mem : ((s.setToSender packets).setSender sender).sender.files = sender.files := rfl
    rw [mem]
    split
    next mem => rw [if_pos (subset mem)]
    next => exact Nat.le_add_right _ _
  have writes : ∀ {pc : SenderPc} {packet : Packet}, packet.starts id = false →
      attempts id (s.senderSays pc packet) ≤ attempts id s := by
    intro pc packet other
    rw [attempts, tokens_senderSays, other]
    exact Nat.le_refl _
  have hears : ∀ {messages : List Message} {t : State Fifo},
      tokens (fun _ => true) (fun _ => false) id t =
        tokens (fun _ => true) (fun _ => false) id (s.setMessages messages) →
      t.sender.files = s.sender.files → attempts id t ≤ attempts id s := by
    intro messages t same files
    rw [attempts, attempts, files, same, tokens_silent]
  cases move with
  | nothing pc empty => exact writes rfl
  | manifest pc => exact writes rfl
  | allCompleted pc => exact writes rfl
  | finish pc => exact writes rfl
  | completed pc inbox => exact fewer fun mem => (mem_foldl_erase.mp mem).1
  | skip pc => exact @fewer s.chan.toSender _ fun mem => mem
  | full pc => exact @fewer s.chan.toSender _ fun mem => mem
  | started pc inbox => exact fewer fun mem => mem
  | retried pc inbox => exact fewer fun mem => mem
  | @start details pc found =>
      have known : s.sender.nextId ∈ s.sender.files :=
        AList.lookup_isSome.mp (by rw [found]; rfl)
      have files : ∀ {sender : Sender}, attempts id ((s.senderSays
          (.starting s.sender.nextId details) (.message (.start s.sender.nextId))).setSender
            sender) = tokens (fun _ => true) (fun _ => false) id s +
              (if s.sender.nextId = id then 1 else 0) + if id ∈ sender.files then 1 else 0 := by
        intro sender
        rw [attempts, tokens_setSender, tokens_senderSays]
        simp only [Packet.starts, decide_eq_true_eq]
        rfl
      rw [files, attempts]
      simp only [AList.mem_erase]
      -- the attempt that was to come is the one that is told of now
      rcases eq_or_ne s.sender.nextId id with rfl | differs
      · rw [if_pos rfl, if_pos known, if_neg fun mem => mem.1 rfl]
      · rw [if_neg differs, if_congr (and_iff_right differs.symm) rfl rfl]
        exact Nat.le_refl _
  | told pc inbox settles => exact hears (tokens_setSender _) rfl
  | @retry other details description rest pc inbox found =>
      have differs : other ≠ id := by
        rintro rfl
        exact quiet description (inbox ▸ List.mem_cons_self)
      refine @hears rest _ ?_ rfl
      rw [tokens_senderSays]
      simp [Packet.starts, differs]
  | @stopped packets messages waits later =>
      refine @hears messages _ ?_ rfl
      rw [tokens_setSender, tokens_silent, tokens_silent, tokens_setToSender]

theorem inv_sender (inv : P.Inv s) (quiet : ∀ id description,
      Message.failure id 0 description ∉ s.shared.messages)
    (move : SenderMove r.cfg s s') : P.Inv s' := by
  obtain ⟨tasks, receiver, disk⟩ := move.frame
  obtain ⟨holds, early, listed, hand, once⟩ := inv
  refine ⟨?_, ?_, ?_, ?_, fun id => (attempts_sender (quiet id) move).trans (once id)⟩
  · rwa [tasks, disk]
  · rwa [tasks, receiver, disk]
  · rwa [receiver]
  · rwa [receiver]

/-! ### Steps of the receiver -/

/-- A task that is to be spawned is the first of its file. -/
theorem Inv.fresh (inv : P.Inv s) (id : UInt32)
    (awaited : 0 < s.chan.toReceiver.countP (Packet.starts id) + s.receiver.pc.spawnCount id) :
    ∀ task ∈ s.tasks, task.id ≠ id := by
  intro task mem own
  have spawned : 0 < s.tasks.countP (fun task => decide (task.id = id) && true) :=
    List.countP_pos_iff.mpr ⟨task, mem, by simpa using own⟩
  have once := inv.once id
  rw [attempts, tokens] at once
  omega

/-- What is left over of a file that no task has touched is still there. -/
theorem Inv.unrestarted (inv : P.Inv s) (mem : details ∈ r.files)
    (fresh : ∀ task ∈ s.tasks, task.id ≠ details.id) :
    restarted s.shared.disk details = details := by
  rw [restarted, if_neg]
  rintro ⟨positive, gone⟩
  have there := P.resumes mem (inv.holds.idle details mem fresh) positive
  rw [gone] at there
  cases there

theorem inv_receiver (agreed : Agreed r.cfg s) (inv : P.Inv s)
    (move : ReceiverMove r.cfg s s') : P.Inv s' := by
  have count : ∀ id, attempts id s' = attempts id s := by
    intro id
    rw [attempts, attempts, move.sender_eq, tokens_receiver rfl agreed move]
  have once : ∀ id, attempts id s' ≤ 1 := fun id => count id ▸ inv.once id
  obtain ⟨holds, early, listed, hand, -⟩ := id inv
  have empty : ∀ details : FileDetails, none = some details → details ∈ r.files := by
    intro details same
    cases same
  cases move with
  | manifest pc inbox =>
      exact ⟨holds, fun _ => early (by rw [pc]; trivial), listed, empty, once⟩
  | nothing pc inbox => exact ⟨holds, False.elim, listed, empty, once⟩
  | @completed manifest files pc prepared =>
      obtain ⟨none_, disk⟩ := early (by rw [pc]; trivial)
      obtain ⟨-, rfl, -⟩ := Handshake.of_preparing (pc ▸ agreed.handshake)
      rw [disk] at prepared
      obtain rfl := Option.some.inj (r.prepared.symm.trans prepared)
      exact ⟨holds, fun _ => ⟨none_, disk⟩,
        fun id details found => (mem_of_lookup_fileMap found).1, empty, once⟩
  | noSpace pc => exact ⟨holds, False.elim, listed, empty, once⟩
  | setUp pc created =>
      obtain ⟨none_, -⟩ := early (by rw [pc]; trivial)
      refine ⟨?_, False.elim, listed, empty, once⟩
      have holds : P.Holds [] s.shared.disk := none_ ▸ holds
      have after := holds.createDirectories created
      rwa [← none_] at after
  | @start id details rest pc inbox known =>
      have mem := listed id details known
      have own := agreed.named id details known
      have first := inv.fresh id (by
        rw [inbox, List.countP_cons_of_pos (by simp [Packet.starts])]
        omega)
      have same := inv.unrestarted mem (own ▸ first)
      refine ⟨holds, False.elim, ?_, ?_, once⟩
      · intro other found look
        have look : (s.receiver.files.insert id (restarted s.shared.disk details)).lookup other =
          some found := look
        rw [same] at look
        rcases eq_or_ne other id with rfl | differs
        · rw [AList.lookup_insert] at look
          cases look
          exact mem
        · exact listed other found ((AList.lookup_insert_ne differs).symm.trans look)
      · rintro _ ⟨⟩
        rwa [same]
  | unknown pc inbox unknown => exact ⟨holds, early, listed, hand, once⟩
  | done pc inbox last => exact ⟨holds, False.elim, listed, empty, once⟩
  | reply pc =>
      exact ⟨holds, False.elim, listed, fun details same => hand details (by rw [pc]; exact same), once⟩
  | push pc =>
      exact ⟨holds, False.elim, listed, fun details same => hand details (by rw [pc]; exact same), once⟩
  | @spawn details pc =>
      have mem := hand details (by rw [pc]; rfl)
      have first := inv.fresh details.id (by
        rw [pc]
        simp [ReceiverPc.spawnCount, ReceiverPc.spawns, ReceiverPc.hand])
      exact ⟨holds.spawn mem first, False.elim, listed, empty, once⟩
  | unprepared pc => exact ⟨holds, False.elim, listed, empty, once⟩
  | stopped reads inbox unexpected => exact ⟨holds, False.elim, listed, empty, once⟩

/-! ### Steps of the tasks -/

/-- No other task has the file of a task. -/
theorem Inv.single (inv : P.Inv s) (here : s.tasks[index]? = some task) :
    ∀ j other, s.tasks[j]? = some other → other.id = task.id → j = index := by
  intro j other there own
  by_contra apart
  have two := two_le_countP (p := fun other => decide (other.id = task.id) && true) apart there
    here (by simpa using own) (by simp)
  have once := inv.once task.id
  rw [attempts, tokens] at once
  omega

theorem inv_task (inv : P.Inv s) (here : s.tasks[index]? = some task)
    (stepped : task.step r.cfg.crates s.shared action = some (shared', task'))
    (allowed : P.allows s.shared task action) :
    P.Inv { s with shared := shared', tasks := s.tasks.set index task' } := by
  have move : task.Move r.cfg.crates s.shared action shared' task' := WriterTask.step_cases stepped
  have same : task'.id = task.id := congrArg FileDetails.id move.details_eq
  have count : ∀ id, tokens (fun _ => true) (fun _ => false) id
      { s with shared := shared', tasks := s.tasks.set index task' } =
        tokens (fun _ => true) (fun _ => false) id s := by
    intro id
    have counted := @tokens_task s (fun _ => true) (fun _ => false) id index task task' shared' here
    simp only [stationTokens, same, List.countP_false] at counted
    exact Nat.add_right_cancel counted
  obtain ⟨holds, early, listed, hand, once⟩ := id inv
  refine ⟨holds.step here (inv.single here) stepped allowed, fun preparing => ?_, listed, hand,
    fun id => ?_⟩
  · rw [(early preparing).1] at here
    cases here
  · rw [attempts, count]
    exact once id

/-! ## Runs -/

/-- A step of a task, before its cases. -/
theorem step_task {cfg : Config} (next : Control.step cfg fifo s (.task index action) = some s') :
    ∃ task shared' task', s.tasks[index]? = some task ∧
      task.step cfg.crates s.shared action = some (shared', task') ∧
      s' = { s with shared := shared', tasks := s.tasks.set index task' } := by
  simp only [Control.step] at next
  split at next
  next =>
    obtain ⟨task, here, moved⟩ := Option.bind_eq_some_iff.mp next
    obtain ⟨after, stepped, rfl⟩ := Option.map_eq_some_iff.mp moved
    exact ⟨task, after.1, after.2, here, stepped, rfl⟩
  next => cases next

/-- **Files keep to themselves.**  In every run with allowed steps what is known of each file
holds, and no attempt fails its signature check. -/
theorem reached (reached : r.machine.ReachableVia P.Allows s) :
    P.Inv s ∧ (ideal r.cfg).ReachableVia (fun s action =>
      ∀ id, True → ¬ FailsCheck r.cfg id s action) s := by
  refine @Machine.ReachableVia.invariant _ _ _ _ (fun s => P.Inv s ∧
    (ideal r.cfg).ReachableVia (fun s action => ∀ id, True → ¬ FailsCheck r.cfg id s action) s)
    ?_ ?_ _ reached
  · rintro s rfl
    exact ⟨inv_init rfl, .init ⟨r.disk, _, rfl, rfl⟩⟩
  · rintro s action s' - ⟨inv, passed⟩ allowed next
    have agreed := agreed_reached passed.reachable
    have quiet : ∀ id description, Message.failure id 0 description ∉ s.shared.messages :=
      fun id => (tracked_reached (passed.mono fun _ _ passes => passes id trivial)).quiet
    refine ⟨?_, passed.step (fun id _ => inv.holds.passes allowed id) next⟩
    cases action with
    | task index action =>
        obtain ⟨task, shared', task', here, stepped, rfl⟩ := step_task next
        exact inv_task inv here stepped (allowed task here)
    | sender =>
        cases @step_cases r.cfg _ _ _ next with
        | sender alive move => exact inv_sender inv quiet move
    | senderExit =>
        cases @step_cases r.cfg _ _ _ next with
        | senderExit => exact ⟨inv.1, inv.2, inv.3, inv.4, inv.5⟩
    | receiver space =>
        cases @step_cases r.cfg _ _ _ next with
        | receiver alive move => exact inv_receiver agreed inv move
    | receiverExit =>
        cases @step_cases r.cfg _ _ _ next with
        | receiverExit => exact ⟨inv.1, inv.2, inv.3, inv.4, inv.5⟩

/-- The latest attempt of every file has ended when the sender finishes. -/
theorem settled_of_finishing (passed : (ideal r.cfg).ReachableVia (fun s action =>
      ∀ id, True → ¬ FailsCheck r.cfg id s action) s) (finishing : s.sender.pc = .finishing)
    {id : UInt32} (listed : id ∈ r.cfg.manifest.files) (incomplete : id ∉ s.sender.completed) :
    LatestSettled id s := by
  have tracked : Tracked r.cfg id s :=
    tracked_reached (passed.mono fun _ _ passes => passes id trivial)
  have free : s.sender.pc.Free := by
    rw [finishing]
    trivial
  obtain ⟨files, active⟩ := tracked.idle finishing
  have idle : id ∉ s.sender.active := by
    intro mem
    have mem := AList.mem_keys.mp mem
    rw [AList.keys, active] at mem
    cases mem
  have ended := tracked.unexpected (by rw [finishing]; exact SenderPc.noConfusion)
    fun expects => idle (free.expecting.mp expects)
  rcases tracked.attempted free.late listed incomplete with pending | attempted
  · have mem := AList.mem_keys.mp pending
    rw [AList.keys, files] at mem
    cases mem
  · exact latestSettled tracked (not_attemptOpen ended) attempted

/-- When the sender finishes, every file has had one attempt, which has ended. -/
theorem ended_of_finishing (run : r.machine.ReachableVia P.Allows s)
    (finishing : s.sender.pc = .finishing) {id : UInt32} (listed : id ∈ r.cfg.manifest.files)
    (incomplete : id ∉ s.sender.completed) :
    ∃ task, s.tasks.filter (fun task => decide (task.id = id)) = [task] ∧
      task.details ∈ r.files ∧ task.details.id = id ∧
      P.holds task.details s.shared.disk task.phase ∧
      (task.phase = .finished (.failed false) ∨ task.phase = .finished .renamed) := by
  obtain ⟨inv, passed⟩ := reached run
  obtain ⟨task, last, ended⟩ := settled_of_finishing passed finishing listed incomplete
  -- the latest attempt is the only one
  have once : (s.tasks.filter fun task => decide (task.id = id)).length ≤ 1 := by
    have once := inv.once id
    rw [attempts, tokens] at once
    simp only [Bool.and_true] at once
    rw [← List.countP_eq_length_filter]
    omega
  have only : s.tasks.filter (fun task => decide (task.id = id)) = [task] := by
    rw [latest] at last
    generalize s.tasks.filter (fun task => decide (task.id = id)) = attempts at last once
    rcases attempts with - | ⟨only, - | ⟨second, rest⟩⟩
    · cases last
    · exact congrArg (fun task => [task]) (Option.some.inj last)
    · exact absurd once (by simp)
  obtain ⟨there, own⟩ := List.mem_filter.mp (only ▸ List.mem_singleton_self task)
  obtain ⟨mem, running⟩ := inv.holds.running task there
  exact ⟨task, only, mem, of_decide_eq_true own, running, ended.symm⟩

end PerFile

end Control

end Cccp
