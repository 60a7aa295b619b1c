import Cccp.Control.Delivered
import Cccp.Control.Started

/-!
# Transfers in which nothing fails

`Smooth` steps are those in which no party exits and no operation of a writer task fails, and
`Session.Ready` says what the two ends have to offer for that.  Then neither controller ever stops
with an error: the steps of the sender are those of `SenderAdvance`, and the receiver stays alive
(`Paired.receiver`).  `Sending` and `Receiving` say what is always there for the next step
(`going_reached`).
-/

namespace Cccp

/-- The task has not failed. -/
def Phase.fine : Phase → Bool
  | .notifying | .removing | .failing .. | .finished (.failed _) | .panicked => false
  | _ => true

/-- The task has not subscribed to its queue. -/
def Phase.begins : Phase → Bool
  | .opening | .seeking _ | .subscribing .. => true
  | _ => false

/-- The partial file can be opened and renamed. -/
structure FileDetails.Placed (details : FileDetails) (disk : FileSystem Path) : Prop where
  parent : disk.IsDirectory details.partialPath.dropLast
  partialPath : disk.entries details.partialPath ≠ some .dir
  path : disk.entries details.path ≠ some .dir

/-- The next operation of the task does not fail.  A file is opened in a directory. -/
def WriterTask.Succeeds (task : WriterTask) (disk : FileSystem Path) : TaskAction → Prop
  | .proceed => task.phase = .opening → disk.IsDirectory task.details.partialPath.dropLast
  | .job .. => True
  | .fail .. | .jobFail .. => False

namespace Control

/-- No party exits, there is enough space, and no operation of a task fails. -/
def Smooth (s : State Fifo) : Action → Prop
  | .sender => True
  | .receiver space => space = true
  | .task index action => ∀ task, s.tasks[index]? = some task → task.Succeeds s.shared.disk action
  | .senderExit | .receiverExit => False

/-- Some file may be transferred at a time, the ciphers of the manifest can be made and last for
their files, the directories can be created, and then all files can be placed. -/
structure Session.Ready (d : Session) : Prop where
  max : 0 < d.cfg.max
  ciphers : ∀ id file, d.cfg.manifest.files.lookup id = some file →
    ∃ cipher, file.crypto.makeCipher d.cfg.crates.cipher = .made cipher ∧
      ∀ n, cipher.ends = some n → file.size.toNat ≤ n
  directories : ∃ disk, createDirectories d.cfg.options d.cfg.manifest d.disk = some disk ∧
    ∀ details ∈ d.files, details.Placed disk

/-! ## Steps of the sender -/

/-- The steps of the sender where nothing fails. -/
inductive SenderAdvance (cfg : Config) (s : State Fifo) : State Fifo → Prop
  | nothing (pc : s.sender.pc = .building) (empty : cfg.manifest.isEmpty = true) :
      SenderAdvance cfg s (s.senderSays .returned (.message (.done 0)))
  | manifest (pc : s.sender.pc = .building) :
      SenderAdvance cfg s (s.senderSays .awaitingCompleted (.message (.manifest cfg.manifest)))
  | completed {ids : List UInt32} {rest : List Packet} (pc : s.sender.pc = .awaitingCompleted)
      (inbox : s.chan.toSender = .message (.completed ids) :: rest) :
      SenderAdvance cfg s ((s.setToSender rest).setSender (s.sender.complete ids))
  | allCompleted (pc : s.sender.pc = .allCompleted) :
      SenderAdvance cfg s (s.senderSays .returned (.message (.done 1)))
  | skip (pc : s.sender.pc = .filling) (more : s.sender.files.entries ≠ [])
      (absent : s.sender.nextId ∉ s.sender.files) :
      SenderAdvance cfg s (s.setSender { s.sender with nextId := s.sender.nextId + 1 })
  | start {details : FileDetail} (pc : s.sender.pc = .filling)
      (found : s.sender.files.lookup s.sender.nextId = some details) :
      SenderAdvance cfg s ((s.senderSays (.starting s.sender.nextId details)
          (.message (.start s.sender.nextId))).setSender
        { s.sender with
          pc := .starting s.sender.nextId details
          files := s.sender.files.erase s.sender.nextId })
  | full (pc : s.sender.pc = .filling)
      (full : cfg.max ≤ s.sender.active.entries.length ∨ s.sender.files.entries = []) :
      SenderAdvance cfg s (s.setSender (s.sender.goto .waiting))
  | started {id : UInt32} {details : FileDetail} {index : UInt64} {rest : List Packet}
      (pc : s.sender.pc = .starting id details)
      (inbox : s.chan.toSender = .startIndex index :: rest) :
      SenderAdvance cfg s ((s.setToSender rest).setSender
        { s.sender with
          pc := .filling
          active := s.sender.active.insert id details
          nextId := s.sender.nextId + 1
          readers := s.sender.readers ++ [(id, index)] })
  | told {id : UInt32} {rest : List Message} (pc : s.sender.pc = .waiting)
      (inbox : s.shared.messages = .end_ id :: rest) :
      SenderAdvance cfg s ((s.setMessages rest).setSender
        { s.sender with active := s.sender.active.erase id }.afterMessage)
  | finish (pc : s.sender.pc = .finishing) :
      SenderAdvance cfg s (s.senderSays .returned (.message (.done 2)))

variable {d : Delivery} {s s' : State Fifo}

/-- What both sides know of each other, and the sender of its files. -/
structure Paired (d : Delivery) (s : State Fifo) : Prop where
  agreed : Agreed d.cfg s
  kept : Kept d.cfg.manifest s.sender
  unretried : ∀ id details, s.sender.pc ≠ .retrying id details

/-- A run without failed signature checks pairs the two sides. -/
theorem paired_reached (reached : d.machine.ReachableVia d.Fed s) : Paired d s := by
  have run := reached.mono fun s action => @Delivery.allows_of_fed d s action
  have passed := (PerFile.reached run).2
  refine ⟨agreed_reached passed.reachable, (answered_reached run).1, fun id details pc => ?_⟩
  exact (tracked_reached (passed.mono fun _ _ passes => passes id trivial)).once details pc

/-- Every file that was asked for has been renamed. -/
def Arrived (d : Delivery) (s : State Fifo) : Prop :=
  ∀ details ∈ d.files, ∃ task ∈ s.tasks, task.id = details.id ∧ task.phase = .finished .renamed

/-- The receiver has chosen the files it asks for. -/
def ReceiverPc.Chosen : ReceiverPc → Prop
  | .awaitingManifest | .preparing _ | .returned => False
  | _ => True

theorem ReceiverPc.Settled.chosen {pc : ReceiverPc} (settled : pc.Settled) : pc.Chosen := by
  cases pc <;> trivial

/-- What the sender goes on with. -/
structure Sending (d : Delivery) (s : State Fifo) : Prop where
  alive : s.sender.alive = true
  pending : s.sender.pc = .filling → s.sender.files.entries ≠ [] ∨ s.sender.active.entries ≠ []
  running : s.sender.pc = .waiting → s.sender.active.entries ≠ []
  ahead : ∀ id ∈ s.sender.files, s.sender.nextId ≤ id ∧
    (s.sender.pc.awaits ≠ none → s.sender.nextId < id)
  complete : s.sender.pc = .allCompleted →
    ∀ id ∈ d.cfg.manifest.files, id ∈ s.sender.completed
  told : s.sender.pc = .returned → s.receiver.pc ≠ .returned → s.chan.toReceiver ≠ []
  arrived : s.sender.pc = .returned → Arrived d s
  /-- all that is reported is that files have arrived -/
  ends : ∀ message ∈ s.shared.messages, ∃ id, message = .end_ id

/-- What the receiver and its tasks go on with. -/
structure Receiving (d : Delivery) (s : State Fifo) : Prop where
  alive : s.receiver.alive = true
  /-- the receiver returns after the sender -/
  last : s.receiver.pc = .returned → s.sender.pc = .returned
  closed : s.shared.closed = true → s.receiver.pc = .returned
  chosen : s.receiver.pc.Chosen → ∀ details ∈ d.files, details.id ∈ s.receiver.files
  setUp : ∀ manifest, s.receiver.pc = .settingUp manifest → manifest = d.cfg.manifest
  placed : ¬ s.receiver.pc.Preparing → s.receiver.pc ≠ .returned →
    ∀ details ∈ d.files, details.Placed s.shared.disk
  fine : ∀ task ∈ s.tasks, task.phase.fine = true
  living : ∀ task ∈ s.tasks, task.phase.Alive task.details.size
  registered : ∀ task ∈ s.tasks, task.phase.begins = true →
    (s.shared.queues task.id).isSome = true
  handed : ∀ details, s.receiver.pc = .spawning details →
    (s.shared.queues details.id).isSome = true

/-- **No step of the sender fails.** -/
theorem Paired.sender (paired : Paired d s) (ready : d.Ready) (sending : Sending d s)
    (receiving : Receiving d s) (next : senderStep d.cfg fifo s = some s') :
    SenderAdvance d.cfg s s' := by
  have handshake := paired.agreed.handshake
  cases pc : s.sender.pc with
  | building =>
      simp only [senderStep, pc] at next
      split at next
      next empty =>
        cases next
        exact .nothing pc empty
      next =>
        cases next
        exact .manifest pc
  | awaitingCompleted =>
      simp only [senderStep, pc] at next
      obtain ⟨read, taken, rfl⟩ := Option.map_eq_some_iff.mp next
      obtain ⟨packet, rest, inbox, rfl⟩ := fifo_read_sender taken
      rw [pc] at handshake
      rcases handshake with ⟨-, chan⟩ | ⟨-, chan⟩ | ⟨-, ids, chan⟩ | ⟨returned, -⟩
      · rw [chan] at inbox
        cases inbox
      · rw [chan] at inbox
        cases inbox
      · rw [chan] at inbox
        cases inbox
        exact .completed pc (congrArg Fifo.toSender chan)
      · cases pc.symm.trans (receiving.last returned)
  | allCompleted =>
      simp only [senderStep, pc] at next
      cases next
      exact .allCompleted pc
  | filling =>
      simp only [senderStep, pc] at next
      split at next
      next room =>
        split at next
        next absent =>
          cases next
          rw [← pc]
          refine .skip pc ?_ (AList.lookup_eq_none.mp absent)
          simpa using room.2
        next details found =>
          cases next
          exact .start pc found
      next full =>
        cases next
        refine .full pc ?_
        by_contra room
        push Not at room
        exact full ⟨room.1, by simpa using room.2⟩
  | starting id details =>
      simp only [senderStep, pc] at next
      obtain ⟨read, taken, rfl⟩ := Option.map_eq_some_iff.mp next
      obtain ⟨packet, rest, inbox, rfl⟩ := fifo_read_sender taken
      rw [pc] at handshake
      rcases handshake with ⟨-, chan⟩ | ⟨-, chan⟩ | ⟨-, index, chan⟩
      · rw [chan] at inbox
        cases inbox
      · rw [chan] at inbox
        cases inbox
      · rw [chan] at inbox
        cases inbox
        obtain ⟨cipher, made, -⟩ :=
          ready.ciphers id details (paired.kept.asked id details (.inl pc))
        have spawns : s.sender.spawnReader d.cfg id details index
            { s.sender with
              pc := .filling
              active := s.sender.active.insert id details
              nextId := s.sender.nextId + 1 } =
            { s.sender with
              pc := .filling
              active := s.sender.active.insert id details
              nextId := s.sender.nextId + 1
              readers := s.sender.readers ++ [(id, index)] } := by
          rw [Sender.spawnReader, made]
        have read : (Packet.startIndex index).readAs .startIndex = some (.startIndex index) := rfl
        rw [read]
        dsimp only
        rw [spawns]
        exact .started pc (congrArg Fifo.toSender chan)
  | waiting =>
      simp only [senderStep, pc] at next
      split at next
      next => cases next
      next message rest inbox =>
        cases next
        obtain ⟨id, rfl⟩ := sending.ends message (inbox ▸ List.mem_cons_self)
        exact .told pc inbox
  | retrying id details => exact absurd pc (paired.unretried id details)
  | finishing =>
      simp only [senderStep, pc] at next
      cases next
      exact .finish pc
  | returned =>
      simp only [senderStep, pc] at next
      cases next

/-! ## Steps of the receiver -/

/-- **No step of the receiver fails.** -/
theorem Paired.receiver (paired : Paired d s) (alive : s.receiver.alive = true)
    (untouched : s.receiver.pc.Preparing → s.shared.disk = d.disk)
    (next : receiverStep d.cfg fifo true s = some s') :
    ReceiverMove d.cfg s s' ∧ s'.receiver.alive = true := by
  have move := receiverStep_cases next
  refine ⟨move, ?_⟩
  have prepares : ∀ manifest, s.receiver.pc = .preparing manifest → s'.receiver.alive = true := by
    intro manifest pc
    have handshake := paired.agreed.handshake
    rw [pc] at handshake
    obtain ⟨-, rfl, -⟩ := handshake.of_preparing
    simp only [receiverStep, pc, untouched (by rw [pc]; trivial), d.prepared, Bool.not_true,
      Bool.and_false] at next
    cases next
    exact alive
  cases move with
  | noSpace pc => exact prepares _ pc
  | unprepared pc => exact prepares _ pc
  | stopped reads inbox unexpected => exact absurd (paired.agreed.expects reads inbox) unexpected
  | _ => exact alive

/-! ## Steps of the tasks -/

section Tasks

variable {crates : Crates} {shared shared' : Shared} {task task' : WriterTask}
  {action : TaskAction}

/-- An operation that succeeds fails no task. -/
theorem fine_step (fine : task.phase.fine = true) (succeeds : task.Succeeds shared.disk action)
    (alive' : task'.phase.Alive task'.details.size)
    (cipher : ∃ cipher, task.details.crypto.makeCipher crates.cipher = .made cipher)
    (registered : task.phase.begins = true → (shared.queues task.id).isSome = true)
    (passes : ∀ signature contents, task.phase = .hashing signature →
      shared.disk.read task.details.partialPath = some contents → crates.hash contents = signature)
    (stepped : task.step crates shared action = some (shared', task')) :
    task'.phase.fine = true := by
  cases action with
  | fail | jobFail => exact succeeds.elim
  | job job passed =>
      cases WriterTask.step_cases stepped with
      | received => rfl
      | keystreamPanicked => exact alive'.elim
      | writeFailed phase bytes error =>
          simp only [WriterTask.step, WriterTask.receive, phase] at stepped
          split at stepped
          next => cases stepped
          next =>
            split at stepped
            all_goals
              obtain ⟨-, same⟩ := Prod.mk.inj (Option.some.inj stepped)
              cases congrArg WriterTask.phase same
      | failed error phase =>
          rcases phase with
            phase | ⟨_, phase⟩ | ⟨_, _, phase⟩ | ⟨_, phase⟩ | phase | phase | phase <;>
          · simp only [WriterTask.step, WriterTask.receive, phase] at stepped
            cases stepped
  | proceed =>
      cases phase : task.phase with
      | notifying | removing | failing | panicked =>
          rw [phase] at fine
          cases fine
      | finished outcome =>
          simp only [WriterTask.step, WriterTask.proceed, phase] at stepped
          cases stepped
      | opening =>
          simp only [WriterTask.step, WriterTask.proceed, phase] at stepped
          obtain ⟨opened, -, same⟩ := Option.map_eq_some_iff.mp stepped
          cases same
          rfl
      | seeking file =>
          obtain ⟨cipher, made⟩ := cipher
          simp only [WriterTask.step, WriterTask.proceed, phase, made] at stepped
          split at stepped
          next =>
            cases stepped
            exact alive'.elim
          next =>
            cases stepped
            rfl
      | subscribing file writer =>
          obtain ⟨queue, found⟩ := Option.isSome_iff_exists.mp (registered (by rw [phase]; rfl))
          simp only [WriterTask.step, WriterTask.proceed, phase, found] at stepped
          cases stepped
          rfl
      | receiving file queue buffered writer =>
          simp only [WriterTask.step, WriterTask.proceed, phase] at stepped
          split at stepped
          next =>
            cases stepped
            rfl
          next => cases stepped
      | popping =>
          simp only [WriterTask.step, WriterTask.proceed, phase] at stepped
          cases stepped
          dsimp only [WriterTask.goto]
          split <;> rfl
      | hashing signature =>
          simp only [WriterTask.step, WriterTask.proceed, phase] at stepped
          obtain ⟨contents, read, same⟩ := Option.map_eq_some_iff.mp stepped
          rw [if_pos (passes signature contents phase read)] at same
          cases same
          rfl
      | moving =>
          simp only [WriterTask.step, WriterTask.proceed, phase] at stepped
          obtain ⟨disk, -, same⟩ := Option.map_eq_some_iff.mp stepped
          cases same
          rfl
      | ending =>
          simp only [WriterTask.step, WriterTask.proceed, phase] at stepped
          split at stepped
          next => cases stepped
          next =>
            cases stepped
            rfl

/-- A task that has ended takes no step. -/
theorem isOpen_of_move (move : task.Move crates shared action shared' task') :
    task.phase.isOpen = true := by
  generalize after : task'.phase = phase
  cases after ▸ move.tells with
  | nothing _ before => exact before
  | mismatch before | end_ before | error before =>
      rw [before]
      rfl

/-- Up to its subscription a task leaves the queues alone. -/
theorem begins_of_move (move : task.Move crates shared action shared' task')
    (begins : task'.phase.begins = true) :
    task.phase.begins = true ∧ shared'.queues = shared.queues := by
  cases move with
  | opened phase | seeked phase =>
      rw [phase]
      exact ⟨rfl, rfl⟩
  | popped phase =>
      dsimp only [WriterTask.goto] at begins
      split at begins <;> cases begins
  | _ => cases begins

/-- The tasks make and remove no directories. -/
theorem dir_move (move : task.Move crates shared action shared' task') (name : Path) :
    shared'.disk.entries name = some .dir ↔ shared.disk.entries name = some .dir := by
  cases move with
  | opened phase opened => exact FileSystem.dir_openAppend opened name
  | removed phase removed => exact FileSystem.dir_remove removed name
  | moved phase renamed => exact FileSystem.dir_rename renamed name
  | _ => exact Iff.rfl

theorem placed_move (move : task.Move crates shared action shared' task') {details : FileDetails}
    (placed : details.Placed shared.disk) : details.Placed shared'.disk := by
  refine ⟨placed.parent.imp_right (Or.imp_right (Or.imp_right (dir_move move _).mpr)), ?_, ?_⟩
  · exact fun dir => placed.partialPath ((dir_move move _).mp dir)
  · exact fun dir => placed.path ((dir_move move _).mp dir)

end Tasks

/-! ## The sender goes on -/

theorem sending_init : Sending d (initial d.cfg d.disk ⟨[], []⟩) where
  alive := rfl
  pending pc := SenderPc.noConfusion pc
  running pc := SenderPc.noConfusion pc
  ahead _ _ := ⟨UInt32.le_iff_toNat_le.mpr (Nat.zero_le _), fun waits => absurd rfl waits⟩
  complete pc := SenderPc.noConfusion pc
  told pc := SenderPc.noConfusion pc
  arrived pc := SenderPc.noConfusion pc
  ends _ mem := absurd mem List.not_mem_nil

theorem Sender.afterMessage_pending {sender : Sender}
    (pc : sender.afterMessage.pc = .filling) :
    sender.files.entries ≠ [] ∨ sender.active.entries ≠ [] := by
  rw [afterMessage, goto] at pc
  by_contra idle
  push Not at idle
  rw [done, idle.1, idle.2] at pc
  cases pc

theorem lt_of_le_of_ne_id {a b : UInt32} (le : a ≤ b) (ne : b ≠ a) : a < b := by
  refine UInt32.lt_iff_toNat_lt.mpr (Nat.lt_of_le_of_ne (UInt32.le_iff_toNat_le.mp le) ?_)
  exact fun same => ne (UInt32.toNat_inj.mp same.symm)

theorem succ_le_of_lt_id {a b : UInt32} (lt : a < b) : a + 1 ≤ b := by
  have lt := UInt32.lt_iff_toNat_lt.mp lt
  have bound := b.toNat_lt
  have one : (1 : UInt32).toNat = 1 := rfl
  rw [UInt32.le_iff_toNat_le, UInt32.toNat_add, one, Nat.mod_eq_of_lt (by omega)]
  exact lt

/-- The sender goes on with files it had. -/
theorem Sending.ahead_of_subset (sending : Sending d s) {sender : Sender}
    (files : ∀ id ∈ sender.files, id ∈ s.sender.files)
    (nextId : sender.nextId = s.sender.nextId) (idle : sender.pc.awaits = none) :
    ∀ id ∈ sender.files, sender.nextId ≤ id ∧
      (sender.pc.awaits ≠ none → sender.nextId < id) := by
  intro id mem
  rw [nextId]
  exact ⟨(sending.ahead id (files id mem)).1, fun waits => absurd idle waits⟩

/-- The sender writes its last message. -/
theorem Sending.finish (sending : Sending d s) {packet : Packet} (arrived : Arrived d s) :
    Sending d (s.senderSays .returned packet) where
  alive := sending.alive
  pending pc := SenderPc.noConfusion pc
  running pc := SenderPc.noConfusion pc
  ahead := sending.ahead_of_subset (fun _ mem => mem) rfl rfl
  complete pc := SenderPc.noConfusion pc
  told _ _ := List.append_ne_nil_of_right_ne_nil _ (List.cons_ne_nil _ _)
  arrived _ := arrived
  ends := sending.ends

/-- The receiver has asked for its files, so that they are not completed. -/
theorem Paired.wanted (paired : Paired d s) (receiving : Receiving d s)
    (free : s.sender.pc.Free) {details : FileDetails} (mem : details ∈ d.files) :
    details.id ∈ d.cfg.manifest.files ∧ details.id ∉ s.sender.completed := by
  have settled := (free.handshake.mp paired.agreed.handshake).1
  exact (paired.agreed.late free.late details.id).mp (receiving.chosen settled.chosen details mem)

theorem sending_sender (ready : d.Ready) (paired : Paired d s) (sending : Sending d s)
    (receiving : Receiving d s) (arrived : s.sender.pc = .finishing → Arrived d s)
    (move : SenderAdvance d.cfg s s') :
    Sending d s' := by
  cases move with
  | nothing pc empty =>
      refine sending.finish fun details mem => ?_
      obtain ⟨file, listed, -⟩ := listed_of_prepared d.prepared mem
      have none_ : d.cfg.manifest.files.entries = [] := by
        simpa [Manifest.isEmpty] using (Bool.and_eq_true_iff.mp empty).1
      have mem := AList.mem_keys.mp (AList.lookup_isSome.mp (Option.isSome_of_eq_some listed))
      rw [AList.keys, none_] at mem
      cases mem
  | manifest pc =>
      exact ⟨sending.alive, SenderPc.noConfusion, SenderPc.noConfusion,
        sending.ahead_of_subset (fun _ mem => mem) rfl rfl, SenderPc.noConfusion,
        SenderPc.noConfusion, SenderPc.noConfusion, sending.ends⟩
  | @completed ids rest pc inbox =>
      obtain ⟨files, -, -⟩ := paired.agreed.early (by rw [pc]; trivial)
      have idle : (s.sender.complete ids).pc.awaits = none := by
        rw [Sender.complete]
        split <;> rfl
      refine ⟨sending.alive, fun filling => .inl ?_, fun waiting => ?_,
        sending.ahead_of_subset (fun _ mem => (mem_foldl_erase.mp mem).1) rfl idle,
        fun complete id mem => ?_, fun returned => ?_, fun returned => ?_, sending.ends⟩
      · intro none_
        rw [State.setSender, Sender.complete] at filling
        dsimp only at filling
        have empty : (ids.foldl (fun files id => files.erase id) s.sender.files).entries.isEmpty :=
          List.isEmpty_iff.mpr none_
        rw [if_pos empty] at filling
        cases filling
      · rw [State.setSender, Sender.complete] at waiting
        dsimp only at waiting
        split at waiting <;> cases waiting
      · rw [State.setSender, Sender.complete] at complete ⊢
        dsimp only at complete ⊢
        split at complete
        next none_ =>
          by_contra incomplete
          have left := mem_foldl_erase.mpr ⟨files ▸ mem, incomplete⟩
          have left := AList.mem_keys.mp left
          rw [AList.keys, List.isEmpty_iff.mp none_] at left
          cases left
        next => cases complete
      · rw [State.setSender, Sender.complete] at returned
        dsimp only at returned
        split at returned <;> cases returned
      · rw [State.setSender, Sender.complete] at returned
        dsimp only at returned
        split at returned <;> cases returned
  | allCompleted pc =>
      have free : s.sender.pc.Free := by
        rw [pc]
        trivial
      refine sending.finish fun details mem => ?_
      obtain ⟨listed, incomplete⟩ := paired.wanted receiving free mem
      exact absurd (sending.complete pc details.id listed) incomplete
  | skip pc more absent =>
      have keep : ∀ {pc' : SenderPc}, s.sender.pc = pc' → pc' ≠ .filling → False :=
        fun same differs => differs (same.symm.trans pc)
      refine ⟨sending.alive, sending.pending, fun same => (keep same SenderPc.noConfusion).elim,
        fun id mem => ?_, fun same => (keep same SenderPc.noConfusion).elim,
        fun same => (keep same SenderPc.noConfusion).elim,
        fun same => (keep same SenderPc.noConfusion).elim, sending.ends⟩
      have below := lt_of_le_of_ne_id (sending.ahead id mem).1 fun same => absent (same ▸ mem)
      refine ⟨succ_le_of_lt_id below, fun waits => absurd ?_ waits⟩
      have idle : s.sender.pc.awaits = none := by rw [pc]; rfl
      exact idle
  | start pc found =>
      refine ⟨sending.alive, SenderPc.noConfusion, SenderPc.noConfusion, fun id mem => ?_,
        SenderPc.noConfusion, SenderPc.noConfusion, SenderPc.noConfusion, sending.ends⟩
      obtain ⟨differs, mem⟩ := AList.mem_erase.mp mem
      have below := (sending.ahead id mem).1
      exact ⟨below, fun _ => lt_of_le_of_ne_id below differs⟩
  | full pc full =>
      refine ⟨sending.alive, SenderPc.noConfusion, fun _ => ?_,
        sending.ahead_of_subset (fun _ mem => mem) rfl rfl, SenderPc.noConfusion,
        SenderPc.noConfusion, SenderPc.noConfusion, sending.ends⟩
      rcases full with full | none_
      · exact List.ne_nil_of_length_pos (Nat.lt_of_lt_of_le ready.max full)
      · exact (sending.pending pc).resolve_left fun more => more none_
  | @started id details index rest pc inbox =>
      refine ⟨sending.alive, fun _ => .inr ?_, SenderPc.noConfusion, fun other mem => ?_,
        SenderPc.noConfusion, SenderPc.noConfusion, SenderPc.noConfusion, sending.ends⟩
      · have entries : (s.sender.active.insert id details).entries ≠ [] := by
          rw [AList.entries_insert]
          exact List.cons_ne_nil _ _
        exact entries
      · have waits : s.sender.pc.awaits ≠ none := by
          rw [pc]
          exact Option.some_ne_none id
        exact ⟨succ_le_of_lt_id ((sending.ahead other mem).2 waits), fun waits => absurd rfl waits⟩
  | @told id rest pc inbox =>
      have free := Sender.afterMessage_free { s.sender with active := s.sender.active.erase id }
      have other : ∀ {pc : SenderPc}, pc ≠ .finishing → pc ≠ .filling →
          (Sender.afterMessage { s.sender with active := s.sender.active.erase id }).pc ≠ pc := by
        intro pc finishing filling same
        rcases Sender.afterMessage_pc { s.sender with active := s.sender.active.erase id } with
          pc' | pc'
        · exact finishing (same.symm.trans pc')
        · exact filling (same.symm.trans pc')
      exact ⟨sending.alive, Sender.afterMessage_pending,
        fun pc => (other SenderPc.noConfusion SenderPc.noConfusion pc).elim,
        sending.ahead_of_subset (fun _ mem => mem) rfl free.awaits,
        fun pc => (other SenderPc.noConfusion SenderPc.noConfusion pc).elim,
        fun pc => (other SenderPc.noConfusion SenderPc.noConfusion pc).elim,
        fun pc => (other SenderPc.noConfusion SenderPc.noConfusion pc).elim,
        fun message mem => sending.ends message (inbox ▸ List.mem_cons_of_mem _ mem)⟩
  | finish pc => exact sending.finish (arrived pc)

theorem sending_receiver (paired : Paired d s) (sending : Sending d s)
    (move : ReceiverMove d.cfg s s') : Sending d s' := by
  have same := move.sender_eq
  have tasks : ∀ task ∈ s.tasks, task ∈ s'.tasks := by
    cases move with
    | spawn => exact fun _ mem => List.mem_append_left _ mem
    | _ => exact fun _ mem => mem
  have told : s.sender.pc = .returned → s'.receiver.pc ≠ .returned → s'.chan.toReceiver ≠ [] := by
    intro returned open_
    have handshake := paired.agreed.handshake
    have silent : ∀ {id : UInt32} {rest : List Packet}, s.receiver.pc = .waiting →
        s.chan.toReceiver ≠ .message (.start id) :: rest := by
      intro id rest pc inbox
      obtain ⟨-, -, ⟨_, _, awaits⟩ | ⟨_, _, other, -⟩⟩ :=
        handshake.inbox (by rw [pc]; trivial) inbox
      · rw [returned] at awaits
        cases awaits
      · cases other
    have kept : ∀ {pc : ReceiverPc}, s.receiver.pc = pc → pc ≠ .returned →
        s.chan.toReceiver ≠ [] := by
      intro pc here differs
      exact sending.told returned fun closed => differs (here.symm.trans closed)
    cases move with
    | manifest pc inbox =>
        rw [pc, returned] at handshake
        rcases handshake.of_awaitingManifest with ⟨other, -⟩ | ⟨other, -⟩ | ⟨-, chan⟩
        · cases other
        · cases other
        · rw [chan] at inbox
          cases inbox
    | nothing pc inbox | done pc inbox last | unprepared pc | noSpace pc | stopped reads inbox _ =>
        exact absurd rfl open_
    | start pc inbox known | unknown pc inbox unknown => exact absurd inbox (silent pc)
    | completed pc | setUp pc | reply pc | push pc | spawn pc =>
        exact kept pc ReceiverPc.noConfusion
  obtain ⟨alive, pending, running, ahead, complete, -, arrived, ends⟩ := sending
  rw [← same] at alive pending running ahead complete arrived told
  refine ⟨alive, pending, running, ahead, complete, told, fun returned details mem => ?_, ?_⟩
  · obtain ⟨task, here, own, ended⟩ := arrived returned details mem
    exact ⟨task, tasks task here, own, ended⟩
  · rwa [move.messages_eq]

theorem sending_task {index : Nat} {action : TaskAction} {task task' : WriterTask}
    {shared' : Shared} (sending : Sending d s) (here : s.tasks[index]? = some task)
    (move : task.Move d.cfg.crates s.shared action shared' task') (fine : task'.phase.fine = true) :
    Sending d { s with shared := shared', tasks := s.tasks.set index task' } := by
  obtain ⟨alive, pending, running, ahead, complete, told, arrived, ends⟩ := sending
  refine ⟨alive, pending, running, ahead, complete, told, fun returned details mem => ?_, ?_⟩
  · obtain ⟨other, there, own, ended⟩ := arrived returned details mem
    obtain ⟨j, there⟩ := List.mem_iff_getElem?.mp there
    have apart : index ≠ j := by
      rintro rfl
      cases here.symm.trans there
      have isOpen := isOpen_of_move move
      rw [ended] at isOpen
      cases isOpen
    exact ⟨other, List.mem_of_getElem? ((List.getElem?_set_ne apart).trans there), own, ended⟩
  · have more : ∀ message ∈ (s.shared.send (.end_ task.id)).messages, ∃ id, message = .end_ id := by
      intro message mem
      rcases List.mem_append.mp mem with mem | new
      · exact ends message mem
      · exact ⟨task.id, List.mem_singleton.mp new⟩
    cases move with
    | ended => exact more
    | notified | reported => cases fine
    | _ => exact ends

/-! ## The receiver goes on -/

theorem receiving_init : Receiving d (initial d.cfg d.disk ⟨[], []⟩) where
  alive := rfl
  last pc := ReceiverPc.noConfusion pc
  closed closed := Bool.noConfusion closed
  chosen chosen := chosen.elim
  setUp _ pc := ReceiverPc.noConfusion pc
  placed settled := absurd trivial settled
  fine _ mem := absurd mem List.not_mem_nil
  living _ mem := absurd mem List.not_mem_nil
  registered _ mem := absurd mem List.not_mem_nil
  handed _ pc := ReceiverPc.noConfusion pc

theorem receiving_sender (receiving : Receiving d s) (move : SenderAdvance d.cfg s s') :
    Receiving d s' := by
  have going : s.sender.pc ≠ .returned := by
    intro returned
    cases move with
    | nothing pc | manifest pc | completed pc | allCompleted pc | skip pc | start pc | full pc
    | started pc | told pc | finish pc => cases returned.symm.trans pc
  have last : ∀ {P : Prop}, s.receiver.pc = .returned → P :=
    fun pc => absurd (receiving.last pc) going
  obtain ⟨alive, -, closed, chosen, setUp, placed, fine, living, registered, handed⟩ := receiving
  cases move <;> exact ⟨alive, last, closed, chosen, setUp, placed, fine, living, registered, handed⟩

theorem receiving_receiver (ready : d.Ready) (paired : Paired d s) (receiving : Receiving d s)
    (untouched : s.receiver.pc.Preparing → s.shared.disk = d.disk)
    (move : ReceiverMove d.cfg s s') (alive : s'.receiver.alive = true) : Receiving d s' := by
  have handshake := paired.agreed.handshake
  obtain ⟨-, last, closed, chosen, setUp, placed, fine, living, registered, handed⟩ := receiving
  have open_ : ∀ {pc : ReceiverPc} {P : Prop}, s.receiver.pc = pc → pc ≠ .returned →
      s.shared.closed = true → P :=
    fun here differs shut => absurd (here.symm.trans (closed shut)) differs
  have asked : ∀ {pc : ReceiverPc}, s.receiver.pc = pc → pc.Chosen →
      ∀ details ∈ d.files, details.id ∈ s.receiver.files :=
    fun here chose => chosen (here ▸ chose)
  cases move with
  | noSpace | unprepared | stopped => cases alive
  | @manifest manifest rest pc inbox =>
      exact ⟨alive, ReceiverPc.noConfusion, open_ pc ReceiverPc.noConfusion, False.elim,
        fun _ pc => ReceiverPc.noConfusion pc, fun settled => absurd trivial settled, fine,
        living, registered, fun _ pc => ReceiverPc.noConfusion pc⟩
  | nothing pc inbox =>
      refine ⟨alive, fun _ => ?_, fun _ => rfl, False.elim, fun _ pc => ReceiverPc.noConfusion pc,
        fun _ waits => absurd rfl waits, fine, living, registered,
        fun _ pc => ReceiverPc.noConfusion pc⟩
      rw [pc] at handshake
      rcases handshake.of_awaitingManifest with ⟨-, chan⟩ | ⟨-, chan⟩ | ⟨returned, -⟩
      · rw [chan] at inbox
        cases inbox
      · rw [chan] at inbox
        cases inbox
      · exact returned
  | @completed manifest files pc prepared =>
      rw [pc] at handshake
      obtain ⟨-, rfl, -⟩ := handshake.of_preparing
      rw [untouched (by rw [pc]; trivial)] at prepared
      refine ⟨alive, ReceiverPc.noConfusion, open_ pc ReceiverPc.noConfusion,
        fun _ details mem => ?_, ?_, fun settled => absurd trivial settled, fine, living, registered,
        fun _ pc => ReceiverPc.noConfusion pc⟩
      · cases prepared.symm.trans d.prepared
        exact mem_fileMap.mpr ⟨details, mem, rfl⟩
      · rintro _ ⟨⟩
        rfl
  | @setUp manifest disk pc created =>
      refine ⟨alive, ReceiverPc.noConfusion, open_ pc ReceiverPc.noConfusion,
        fun _ => asked pc trivial, fun _ pc => ReceiverPc.noConfusion pc, fun _ _ => ?_, fine,
        living, registered, fun _ pc => ReceiverPc.noConfusion pc⟩
      obtain ⟨disk', created', placed⟩ := ready.directories
      rw [setUp manifest pc, untouched (by rw [pc]; trivial)] at created
      cases created.symm.trans created'
      exact placed
  | start pc inbox known =>
      exact ⟨alive, ReceiverPc.noConfusion, open_ pc ReceiverPc.noConfusion,
        fun _ details mem => (AList.mem_insert _).mpr (.inr (asked pc trivial details mem)),
        fun _ pc => ReceiverPc.noConfusion pc,
        fun _ _ => placed (by rw [pc]; exact id) (by rw [pc]; exact ReceiverPc.noConfusion), fine,
        living, registered, fun _ pc => ReceiverPc.noConfusion pc⟩
  | unknown pc inbox unknown =>
      exact ⟨alive, last, closed, chosen, setUp, placed, fine, living, registered, handed⟩
  | done pc inbox =>
      refine ⟨alive, fun _ => ?_, fun _ => rfl, False.elim, fun _ pc => ReceiverPc.noConfusion pc,
        fun _ waits => absurd rfl waits, fine, living, registered,
        fun _ pc => ReceiverPc.noConfusion pc⟩
      obtain ⟨-, -, ⟨_, other, -⟩ | ⟨_, -, -, returned⟩⟩ :=
        handshake.inbox (by rw [pc]; trivial) inbox
      · cases other
      · exact returned
  | reply pc =>
      exact ⟨alive, ReceiverPc.noConfusion, open_ pc ReceiverPc.noConfusion,
        fun _ => asked pc trivial, fun _ pc => ReceiverPc.noConfusion pc,
        fun _ _ => placed (by rw [pc]; exact id) (by rw [pc]; exact ReceiverPc.noConfusion), fine,
        living, registered, fun _ pc => ReceiverPc.noConfusion pc⟩
  | @push details pc =>
      have pushed : ∀ id, (s.shared.queues id).isSome = true →
          ((s.shared.pushQueue details.id).queues id).isSome = true := by
        intro id found
        simp only [Shared.pushQueue]
        split
        next => rfl
        next => exact found
      refine ⟨alive, ReceiverPc.noConfusion, open_ pc ReceiverPc.noConfusion,
        fun _ => asked pc trivial, fun _ pc => ReceiverPc.noConfusion pc,
        fun _ _ => placed (by rw [pc]; exact id) (by rw [pc]; exact ReceiverPc.noConfusion), fine,
        living, fun task mem begins => pushed _ (registered task mem begins), ?_⟩
      rintro _ ⟨⟩
      simp [State.setReceiver, State.setShared, Shared.pushQueue]
  | @spawn details pc =>
      refine ⟨alive, ReceiverPc.noConfusion, open_ pc ReceiverPc.noConfusion,
        fun _ => asked pc trivial, fun _ pc => ReceiverPc.noConfusion pc,
        fun _ _ => placed (by rw [pc]; exact id) (by rw [pc]; exact ReceiverPc.noConfusion),
        fun task mem => ?_, fun task mem => ?_, fun task mem begins => ?_,
        fun _ pc => ReceiverPc.noConfusion pc⟩
      · rcases List.mem_append.mp mem with mem | new
        · exact fine task mem
        · rw [List.mem_singleton.mp new]
          rfl
      · rcases List.mem_append.mp mem with mem | new
        · exact living task mem
        · rw [List.mem_singleton.mp new]
          trivial
      · rcases List.mem_append.mp mem with mem | new
        · exact registered task mem begins
        · rw [List.mem_singleton.mp new]
          exact handed details pc

theorem receiving_task {index : Nat} {action : TaskAction} {task task' : WriterTask}
    {shared' : Shared} (receiving : Receiving d s) (here : s.tasks[index]? = some task)
    (single : ∀ j other, s.tasks[j]? = some other → other.id = task.id → j = index)
    (fresh : ∀ details, s.receiver.pc = .spawning details → task.id ≠ details.id)
    (move : task.Move d.cfg.crates s.shared action shared' task')
    (fine' : task'.phase.fine = true) (alive' : task'.phase.Alive task'.details.size) :
    Receiving d { s with shared := shared', tasks := s.tasks.set index task' } := by
  obtain ⟨alive, last, closed, chosen, setUp, placed, fine, living, registered, handed⟩ := receiving
  have same : shared'.closed = s.shared.closed := by
    cases move <;> rfl
  have kept : ∀ id, id ≠ task.id → (s.shared.queues id).isSome = true →
      (shared'.queues id).isSome = true := by
    intro id differs found
    rcases move.queues_cases with ⟨-, popped⟩ | ⟨-, same⟩
    · rw [popped, Shared.popQueue]
      dsimp only
      rwa [if_neg differs]
    · rwa [same]
  refine ⟨alive, last, fun shut => closed (same ▸ shut), chosen, setUp,
    fun settled waits details mem => ?_,
    fun other mem => ?_, fun other mem => ?_, fun other mem begins => ?_, fun details pc => ?_⟩
  · exact placed_move move (placed settled waits details mem)
  · rcases List.mem_or_eq_of_mem_set mem with mem | rfl
    · exact fine other mem
    · exact fine'
  · rcases List.mem_or_eq_of_mem_set mem with mem | rfl
    · exact living other mem
    · exact alive'
  · obtain ⟨j, there⟩ := List.mem_iff_getElem?.mp mem
    by_cases moved : j = index
    · subst moved
      rw [List.getElem?_set_self (List.getElem?_eq_some_iff.mp here).1] at there
      cases there
      have id_eq : task'.id = task.id := congrArg FileDetails.id move.details_eq
      obtain ⟨before, same⟩ := begins_of_move move begins
      have found := registered task (List.mem_of_getElem? here) before
      rwa [id_eq, same]
    · rw [List.getElem?_set_ne (Ne.symm moved)] at there
      exact kept _ (fun own => moved (single j other there own))
        (registered other (List.mem_of_getElem? there) begins)
  · exact kept _ (fresh details pc).symm (handed details pc)

/-! ## Smooth runs -/

/-- The steps of a run in which nothing fails. -/
def Fine (d : Delivery) (s : State Fifo) (action : Action) : Prop :=
  d.Fed s action ∧ Smooth s action

/-- When the sender finishes, its files have been renamed. -/
theorem arrived_of_finishing (reached : d.machine.ReachableVia d.Fed s) (paired : Paired d s)
    (receiving : Receiving d s) (finishing : s.sender.pc = .finishing) : Arrived d s := by
  have free : s.sender.pc.Free := by
    rw [finishing]
    trivial
  intro details asked
  obtain ⟨listed, incomplete⟩ := paired.wanted receiving free asked
  obtain ⟨task, only, -, own, -, ended⟩ := PerFile.ended_of_finishing
    (reached.mono fun s action => @Delivery.allows_of_fed d s action) finishing listed incomplete
  have mem := List.mem_of_mem_filter (only ▸ List.mem_singleton_self task)
  refine ⟨task, mem, own, ended.resolve_left fun failed => ?_⟩
  have fine := receiving.fine task mem
  rw [failed] at fine
  cases fine

/-- The cipher of a file can be made, and it lasts. -/
theorem Session.Ready.exists_cipher (ready : d.Ready) {details : FileDetails}
    (mem : details ∈ d.files) :
    (∃ cipher, details.crypto.makeCipher d.cfg.crates.cipher = .made cipher) ∧
      details.crypto.Lasts d.cfg.crates.cipher details.startIndex details.size := by
  obtain ⟨file, listed, key, size⟩ := listed_of_prepared d.prepared mem
  obtain ⟨cipher, made, lasts⟩ := ready.ciphers _ file listed
  rw [key] at made
  refine ⟨⟨cipher, made⟩, fun other n is ends => ?_⟩
  cases made.symm.trans is
  obtain ⟨-, within, -⟩ := Delivery.leftover_eq mem
  rw [← d.whole details mem] at within
  exact ⟨UInt64.le_iff_toNat_le.mpr within, size ▸ lasts n ends⟩

/-- The operations of a task succeed in a smooth run. -/
theorem fine_of_smooth (ready : d.Ready) (inv : d.perFile.Inv s) (receiving : Receiving d s)
    {index : Nat} {action : TaskAction} {task task' : WriterTask} {shared' : Shared}
    (here : s.tasks[index]? = some task) (smooth : task.Succeeds s.shared.disk action)
    (stepped : task.step d.cfg.crates s.shared action = some (shared', task')) :
    task'.phase.fine = true ∧ task'.phase.Alive task'.details.size := by
  have there := List.mem_of_getElem? here
  obtain ⟨mem, running⟩ := inv.holds.running task there
  obtain ⟨made, lasts⟩ := ready.exists_cipher mem
  have fine := receiving.fine task there
  have sliceable : task.details.crypto.Sliceable := by
    by_contra short
    obtain ⟨cipher, made⟩ := made
    cases made.symm.trans (Crypto.makeCipher_panicked_iff.mpr short)
  have alive' : task'.phase.Alive task'.details.size := by
    refine (WriterTask.step_cases stepped).alive sliceable lasts (receiving.living task there) ?_
    intro signature error phase
    rw [phase] at fine
    cases fine
  refine ⟨fine_step fine smooth alive' made (receiving.registered task there)
    (fun signature contents phase read => ?_) stepped, alive'⟩
  exact d.perFile.passes phase running trivial read

/-- **Nothing fails by itself.**  In a smooth run both sides go on. -/
theorem going_reached (ready : d.Ready) (reached : d.machine.ReachableVia (Fine d) s) :
    Sending d s ∧ Receiving d s := by
  refine @Machine.ReachableVia.invariant _ _ _ _ (fun s => Sending d s ∧ Receiving d s) ?_ ?_ _
    reached
  · rintro s rfl
    exact ⟨sending_init, receiving_init⟩
  · rintro s action s' reached ⟨sending, receiving⟩ ⟨fed, smooth⟩ next
    have run := reached.mono fun _ _ fine => fine.1
    have paired := paired_reached run
    have inv := (PerFile.reached (run.mono fun s action => @Delivery.allows_of_fed d s action)).1
    have untouched := fun preparing => (inv.early preparing).2
    cases action with
    | senderExit | receiverExit => exact smooth.elim
    | sender =>
        have moved : senderStep d.cfg fifo s = some s' := (if_pos sending.alive).symm.trans next
        have move := paired.sender ready sending receiving moved
        have arrived := arrived_of_finishing run paired receiving
        exact ⟨sending_sender ready paired sending receiving arrived move,
          receiving_sender receiving move⟩
    | receiver space =>
        obtain rfl : space = true := smooth
        have moved : receiverStep d.cfg fifo true s = some s' :=
          (if_pos receiving.alive).symm.trans next
        obtain ⟨move, alive⟩ := paired.receiver receiving.alive untouched moved
        exact ⟨sending_receiver paired sending move,
          receiving_receiver ready paired receiving untouched move alive⟩
    | task index action =>
        obtain ⟨task, shared', task', here, stepped, rfl⟩ := PerFile.step_task next
        obtain ⟨fine, alive⟩ := fine_of_smooth ready inv receiving here (smooth task here) stepped
        have move := WriterTask.step_cases stepped
        refine ⟨sending_task sending here move fine,
          receiving_task receiving here (inv.single here) (fun details pc => ?_) move fine alive⟩
        refine inv.fresh details.id ?_ task (List.mem_of_getElem? here)
        rw [pc]
        simp [ReceiverPc.spawnCount, ReceiverPc.spawns, ReceiverPc.hand]

end Control

end Cccp
