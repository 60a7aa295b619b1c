import Cccp.Control.Smooth
import Mathlib.Algebra.GroupWithZero.Nat
import Mathlib.Algebra.Order.BigOperators.Group.List

/-!
# Where the control part waits

In a smooth run every step of the two controllers and of the writer tasks but that of taking in a
job leaves less to do (`rank`).  So the control part comes to rest, and there it has either
returned or waits for jobs (`Parked`): some writer task of an active file has not got all of it
(`progress`).
-/

namespace Cccp

/-- More steps than the loop that starts files takes from one `Start` message to the next. -/
def loopRank : Nat := 2 ^ 32

/-- The steps that a message to the sender leads to. -/
def messageRank : Nat := loopRank + 4

/-- The steps that a writer task and its report lead to. -/
def Phase.rank : Phase → Nat
  | .opening => messageRank + 8
  | .seeking _ => messageRank + 7
  | .subscribing .. => messageRank + 6
  | .receiving .. => messageRank + 5
  | .popping => messageRank + 4
  | .hashing _ => messageRank + 3
  | .moving => messageRank + 2
  | .ending => messageRank + 1
  | _ => 0

namespace Control

def Sender.rank (sender : Sender) : Nat :=
  match sender.pc with
  | .building => loopRank + 5
  | .awaitingCompleted => loopRank + 3
  | .starting .. | .retrying .. => loopRank + 2
  | .filling => loopRank + 1 - sender.nextId.toNat
  | .allCompleted | .finishing => 2
  | .waiting | .returned => 0

/-- The steps that a packet to the receiver leads to. -/
def Packet.rank : Packet → Nat
  | .message (.start _) => Phase.opening.rank + 4
  | _ => 1

def ReceiverPc.rank : ReceiverPc → Nat
  | .awaitingManifest => 3
  | .preparing _ => 2
  | .settingUp _ => 1
  | .replying _ => Phase.opening.rank + 3
  | .pushing _ => Phase.opening.rank + 2
  | .spawning _ => Phase.opening.rank + 1
  | .waiting | .returned => 0

/-- The steps that a file that has not been started leads to. -/
def fileRank : Nat := 2 * loopRank + 20

/-- What is left to do for the control part, but for taking in jobs. -/
def rank (s : State Fifo) : Nat :=
  fileRank * s.sender.files.entries.length + s.sender.rank +
    (s.chan.toReceiver.map Packet.rank).sum + s.receiver.pc.rank +
    (s.tasks.map fun task => task.phase.rank).sum + messageRank * s.shared.messages.length

variable {d : Delivery} {s s' : State Fifo}

/-! ## Steps leave less to do -/

/-- The sender writes a packet. -/
theorem rank_senderSays (pc : SenderPc) (packet : Packet) :
    rank (s.senderSays pc packet) + s.sender.rank =
      rank s + (s.sender.goto pc).rank + packet.rank := by
  simp only [rank, State.senderSays, State.setSender, State.setChan, Sender.goto,
    List.map_append, List.sum_append, List.map_cons, List.map_nil, List.sum_cons, List.sum_nil]
  omega

theorem Sender.rank_afterMessage_le (sender : Sender) :
    sender.afterMessage.rank ≤ loopRank + 1 := by
  rcases sender.afterMessage_pc with pc | pc
  · rw [rank, pc]
    exact Nat.le_add_left 2 (2 ^ 32 - 1)
  · rw [rank, pc]
    exact Nat.sub_le _ _

theorem length_foldl_erase_le {V : Type} (ids : List UInt32) (map : HashMap UInt32 V) :
    (ids.foldl (fun map id => map.erase id) map).entries.length ≤ map.entries.length := by
  induction ids generalizing map with
  | nil => exact Nat.le_refl _
  | cons id rest ih => exact (ih _).trans (List.kerase_sublist id map.entries).length_le

theorem length_erase_add_one {V : Type} {map : HashMap UInt32 V} {id : UInt32} (mem : id ∈ map) :
    (map.erase id).entries.length + 1 = map.entries.length := by
  have keys := length_keys_erase mem
  simp only [AList.keys, List.keys, List.length_map] at keys
  exact keys

theorem Sender.rank_complete_le (sender : Sender) (ids : List UInt32) :
    (sender.complete ids).rank ≤ loopRank + 1 := by
  rw [complete, rank]
  dsimp only
  by_cases complete : (ids.foldl (fun files id => files.erase id) sender.files).entries.isEmpty
  · rw [if_pos complete]
    exact Nat.le_add_left 2 (2 ^ 32 - 1)
  · rw [if_neg complete]
    exact Nat.sub_le _ _

/-- Every step of the sender leaves less to do. -/
theorem rank_sender (sending : Sending d s) (move : SenderAdvance d.cfg s s') :
    rank s' < rank s := by
  have bound := s.sender.nextId.toNat_lt
  cases move with
  | nothing pc | allCompleted pc | finish pc =>
      refine Nat.lt_of_add_lt_add_right (lt_of_eq_of_lt (rank_senderSays _ _) ?_)
      simp only [Sender.goto, Sender.rank, Packet.rank, pc]
      omega
  | manifest pc =>
      refine Nat.lt_of_add_lt_add_right (lt_of_eq_of_lt (rank_senderSays _ _) ?_)
      simp only [Sender.goto, Sender.rank, Packet.rank, pc]
      omega
  | @completed ids rest pc inbox =>
      have fewer : (s.sender.complete ids).files.entries.length ≤ s.sender.files.entries.length :=
        length_foldl_erase_le ids s.sender.files
      have files := Nat.mul_le_mul_left fileRank fewer
      have before : s.sender.rank = loopRank + 3 := by rw [Sender.rank, pc]
      have after := s.sender.rank_complete_le ids
      simp only [rank, State.setSender, State.setToSender, State.setChan]
      omega
  | skip pc more absent =>
      obtain ⟨entry, mem⟩ := List.exists_mem_of_ne_nil _ more
      have listed : entry.1 ∈ s.sender.files := AList.mem_keys.mpr (List.mem_map_of_mem mem)
      have le := (sending.ahead entry.1 listed).1
      have lt := lt_of_le_of_ne_id le fun same => absent (same ▸ listed)
      have below := UInt32.lt_iff_toNat_lt.mp lt
      have top := entry.1.toNat_lt
      have one : (1 : UInt32).toNat = 1 := rfl
      have next : (s.sender.nextId + 1).toNat = s.sender.nextId.toNat + 1 := by
        rw [UInt32.toNat_add, one, Nat.mod_eq_of_lt (by omega)]
      simp only [rank, State.setSender, Sender.rank, pc, next, loopRank]
      omega
  | @start details pc found =>
      have fewer := length_erase_add_one (AList.lookup_isSome.mp (Option.isSome_of_eq_some found))
      simp only [rank, State.setSender, State.senderSays, State.setChan, Sender.rank, pc,
        List.map_append, List.sum_append, List.map_cons, List.map_nil, List.sum_cons, List.sum_nil,
        Packet.rank, Phase.rank, messageRank, ← fewer, fileRank, Nat.mul_add_one]
      omega
  | full pc full =>
      simp only [rank, State.setSender, Sender.goto, Sender.rank, pc, loopRank]
      omega
  | @started id details index rest pc inbox =>
      simp only [rank, State.setSender, State.setToSender, State.setChan, Sender.rank, pc]
      omega
  | @told id rest pc inbox =>
      have after := Sender.rank_afterMessage_le { s.sender with active := s.sender.active.erase id }
      have same : (Sender.afterMessage { s.sender with active := s.sender.active.erase id }).files =
        s.sender.files := rfl
      simp only [rank, State.setSender, State.setMessages, State.setShared, same, inbox,
        List.length_cons, Nat.mul_add_one, messageRank] at after ⊢
      omega

/-- Every packet leads to a step. -/
theorem Packet.rank_pos (packet : Packet) : 0 < packet.rank := by
  unfold rank
  split <;> omega

/-- Every step of the receiver leaves less to do. -/
theorem rank_receiver (move : ReceiverMove d.cfg s s') : rank s' < rank s := by
  cases move with
  | manifest pc inbox | nothing pc inbox =>
      simp only [rank, State.setReceiver, State.setToReceiver, State.setChan, Receiver.goto,
        ReceiverPc.rank, pc, inbox, List.map_cons, List.sum_cons]
      omega
  | completed pc | noSpace pc | unprepared pc =>
      simp only [rank, State.receiverSays, State.setReceiver, State.setChan, Receiver.stop,
        ReceiverPc.rank, pc]
      omega
  | setUp pc =>
      simp only [rank, State.setReceiver, State.setShared, Shared.setDisk, Receiver.goto,
        ReceiverPc.rank, pc]
      omega
  | start pc inbox known =>
      simp only [rank, State.setReceiver, State.setToReceiver, State.setChan, ReceiverPc.rank, pc,
        inbox, List.map_cons, List.sum_cons, Packet.rank]
      omega
  | unknown pc inbox | done pc inbox =>
      simp only [rank, State.setReceiver, State.setToReceiver, State.setChan, State.setShared,
        Receiver.goto, ReceiverPc.rank, pc, inbox, List.map_cons, List.sum_cons, Packet.rank]
      omega
  | reply pc =>
      simp only [rank, State.receiverSays, State.setReceiver, State.setChan, Receiver.goto,
        ReceiverPc.rank, pc]
      omega
  | push pc =>
      simp only [rank, State.setReceiver, State.setShared, Shared.pushQueue, Receiver.goto,
        ReceiverPc.rank, pc]
      omega
  | spawn pc =>
      simp only [rank, Receiver.goto, ReceiverPc.rank, pc, List.map_append, List.sum_append,
        List.map_cons, List.map_nil, List.sum_cons, List.sum_nil]
      omega
  | @stopped packet rest reads inbox _ =>
      have first := packet.rank_pos
      simp only [rank, State.setReceiver, State.setToReceiver, State.setChan, Receiver.stop,
        ReceiverPc.rank, inbox, List.map_cons, List.sum_cons]
      omega

section Tasks

variable {shared' : Shared} {task task' : WriterTask} {index : Nat} {action : TaskAction}

theorem rank_setTask (here : s.tasks[index]? = some task) :
    rank { s with shared := shared', tasks := s.tasks.set index task' } +
        (task.phase.rank + messageRank * s.shared.messages.length) =
      rank s + (task'.phase.rank + messageRank * shared'.messages.length) := by
  have sum := sum_map_set_add (f := fun task => task.phase.rank) here task'
  simp only [rank]
  omega

/-- Every step of a task leaves less to do, or it takes in a job. -/
theorem rank_task (here : s.tasks[index]? = some task)
    (move : task.Move d.cfg.crates s.shared action shared' task')
    (fine : task.phase.fine = true) (fine' : task'.phase.fine = true) :
    rank { s with shared := shared', tasks := s.tasks.set index task' } < rank s ∨
      (∃ job passed, action = .job job passed) ∧
        rank { s with shared := shared', tasks := s.tasks.set index task' } = rank s := by
  have goes := @rank_setTask s shared' task task' index here
  cases move with
  | received phase running job _ passed =>
      refine .inr ⟨⟨job, passed, rfl⟩, ?_⟩
      simp only [phase, Phase.rank, WriterTask.goto, Shared.setDisk] at goes
      exact Nat.add_right_cancel goes
  | opened phase | seeked phase | subscribed phase | flushed phase | moved phase
  | verified phase =>
      left
      simp only [phase, Phase.rank, WriterTask.goto, Shared.setDisk] at goes ⊢
      omega
  | popped phase =>
      left
      cases signed : task.details.signature <;>
      · simp only [signed, phase, Phase.rank, WriterTask.goto, Shared.popQueue] at goes ⊢
        omega
  | ended phase =>
      left
      simp only [phase, Phase.rank, WriterTask.goto, Shared.send, List.length_append,
        List.length_singleton, Nat.mul_add_one] at goes ⊢
      omega
  | mismatched | keyPanicked | seekPanicked | keystreamPanicked | sendPanicked | writeFailed
  | failed => cases fine'
  | notified phase | removed phase | unremoved phase | reported phase =>
      rw [phase] at fine
      cases fine

end Tasks

/-! ## Where steps can be taken -/

/-- The task waits for jobs: some of its file is missing. -/
def Lacks (task : WriterTask) : Prop :=
  ∃ file queue buffered writer, task.phase = .receiving file queue buffered writer ∧
    writer.position ≠ task.details.size

/-- Where the control part waits for jobs. -/
structure Parked (s : State Fifo) : Prop where
  sender : s.sender.pc = .waiting
  receiver : s.receiver.pc = .waiting
  chan : s.chan = ⟨[], []⟩
  lacks : ∃ task ∈ s.tasks, task.id ∈ s.sender.active ∧ Lacks task

/-- A step that takes in no job leaves less to do. -/
def Advances (d : Delivery) (s : State Fifo) : Prop :=
  ∃ action s', (∀ index job passed, action ≠ .task index (.job job passed)) ∧ Fine d s action ∧
    d.machine.step s action = some s' ∧ rank s' < rank s

/-- A task that does not wait for jobs goes on. -/
theorem exists_proceed {t : Target} (crates : Crates) {shared : Shared} {task : WriterTask}
    (same : t.details = task.details) (holds : t.Holds shared.disk task.phase)
    (placed : task.details.Placed shared.disk) (open_ : shared.closed = false)
    (fine : task.phase.fine = true) (isOpen : task.phase.isOpen = true) (waits : ¬ Lacks task) :
    ∃ shared' task', task.step crates shared .proceed = some (shared', task') := by
  cases phase : task.phase with
  | notifying | removing | failing | panicked =>
      rw [phase] at fine
      cases fine
  | finished =>
      rw [phase] at isOpen
      cases isOpen
  | opening =>
      obtain ⟨file, disk, opened⟩ := FileSystem.exists_openAppend placed.partialPath
      simp only [WriterTask.step, WriterTask.proceed, phase, opened, Option.map_some]
      exact ⟨_, _, rfl⟩
  | seeking file =>
      simp only [WriterTask.step, WriterTask.proceed, phase]
      split
      next => split <;> exact ⟨_, _, rfl⟩
      next => exact ⟨_, _, rfl⟩
      next => exact ⟨_, _, rfl⟩
  | subscribing file writer =>
      simp only [WriterTask.step, WriterTask.proceed, phase]
      split <;> exact ⟨_, _, rfl⟩
  | receiving file queue buffered writer =>
      have complete : writer.position = task.details.size := by
        by_contra missing
        exact waits ⟨file, queue, buffered, writer, phase, missing⟩
      simp only [WriterTask.step, WriterTask.proceed, phase, if_pos complete]
      exact ⟨_, _, rfl⟩
  | popping =>
      simp only [WriterTask.step, WriterTask.proceed, phase]
      exact ⟨_, _, rfl⟩
  | hashing signature =>
      rw [phase] at holds
      obtain ⟨-, read, -⟩ := holds
      rw [same] at read
      simp only [WriterTask.step, WriterTask.proceed, phase, read, Option.map_some]
      exact ⟨_, _, rfl⟩
  | moving =>
      rw [phase] at holds
      obtain ⟨-, read⟩ := holds
      rw [same] at read
      obtain ⟨disk, renamed⟩ := FileSystem.exists_rename read placed.path
      simp only [WriterTask.step, WriterTask.proceed, phase, renamed, Option.map_some]
      exact ⟨_, _, rfl⟩
  | ending =>
      simp only [WriterTask.step, WriterTask.proceed, phase, open_]
      exact ⟨_, _, rfl⟩

/-- What the next step needs. -/
structure Going (d : Delivery) (s : State Fifo) : Prop where
  ready : d.Ready
  paired : Paired d s
  tracked : ∀ id, Tracked d.cfg id s
  inv : d.perFile.Inv s
  sending : Sending d s
  receiving : Receiving d s

/-- A smooth run goes on. -/
theorem going_of_reached (ready : d.Ready) (reached : d.machine.ReachableVia (Fine d) s) :
    Going d s := by
  have fed : d.machine.ReachableVia d.Fed s := reached.mono fun _ _ fine => fine.1
  obtain ⟨inv, passed⟩ :=
    PerFile.reached (fed.mono fun s action => @Delivery.allows_of_fed d s action)
  obtain ⟨sending, receiving⟩ := going_reached ready reached
  refine ⟨ready, paired_reached fed, fun id => ?_, inv, sending, receiving⟩
  exact tracked_reached (passed.mono fun _ _ passes => passes id trivial)

theorem Going.untouched (going : Going d s) (preparing : s.receiver.pc.Preparing) :
    s.shared.disk = d.disk :=
  (going.inv.early preparing).2

theorem Going.advances_sender (going : Going d s) (next : senderStep d.cfg fifo s = some s') :
    Advances d s := by
  have move := going.paired.sender going.ready going.sending going.receiving next
  refine ⟨.sender, s', fun _ _ _ => Action.noConfusion, ⟨trivial, trivial⟩, ?_,
    rank_sender going.sending move⟩
  exact (if_pos going.sending.alive).trans next

theorem Going.advances_receiver (going : Going d s)
    (next : receiverStep d.cfg fifo true s = some s') : Advances d s := by
  obtain ⟨move, -⟩ := going.paired.receiver going.receiving.alive going.untouched next
  refine ⟨.receiver true, s', fun _ _ _ => Action.noConfusion, ⟨trivial, rfl⟩, ?_,
    rank_receiver move⟩
  exact (if_pos going.receiving.alive).trans next

theorem Going.advances_task (going : Going d s) (waiting : s.receiver.pc = .waiting)
    {task : WriterTask} (mem : task ∈ s.tasks) (isOpen : task.phase.isOpen = true)
    (waits : ¬ Lacks task) : Advances d s := by
  obtain ⟨index, here⟩ := List.mem_iff_getElem?.mp mem
  obtain ⟨listed, _, holds⟩ := going.inv.holds.running task mem
  have open_ : s.receiver.pc ≠ .returned := by
    rw [waiting]
    exact ReceiverPc.noConfusion
  have placed := going.receiving.placed (by rw [waiting]; exact id) open_ task.details listed
  have closed : s.shared.closed = false := by
    by_contra shut
    exact open_ (going.receiving.closed (Bool.eq_true_of_not_eq_false shut))
  have fine := going.receiving.fine task mem
  obtain ⟨shared', task', stepped⟩ :=
    exists_proceed d.cfg.crates rfl holds placed closed fine isOpen waits
  have succeeds : task.Succeeds s.shared.disk .proceed := fun _ => placed.parent
  obtain ⟨fine', -⟩ := fine_of_smooth going.ready going.inv going.receiving here succeeds stepped
  have goes := rank_task here (WriterTask.step_cases stepped) fine fine'
  refine ⟨.task index .proceed, _, fun _ _ _ other => ?_,
    ⟨fun _ _ => trivial, fun other there => ?_⟩, ?_, goes.resolve_right fun ⟨⟨_, _, other⟩, _⟩ => TaskAction.noConfusion other⟩
  · cases other
  · cases here.symm.trans there
    exact succeeds
  · refine (if_pos going.receiving.alive).trans ?_
    rw [taskStep, here, Option.bind_some, stepped]
    rfl

/-- A receiver that has something to do goes on. -/
theorem Going.advances_settled (going : Going d s) (settled : s.receiver.pc.Settled)
    (busy : s.receiver.pc = .waiting → s.chan.toReceiver ≠ []) : Advances d s := by
  cases pc : s.receiver.pc with
  | awaitingManifest | preparing | replying | returned =>
      rw [pc] at settled
      exact settled.elim
  | settingUp manifest =>
      obtain ⟨disk, created, -⟩ := going.ready.directories
      obtain rfl := going.receiving.setUp manifest pc
      rw [← going.untouched (by rw [pc]; trivial)] at created
      obtain ⟨s', next⟩ : ∃ s', receiverStep d.cfg fifo true s = some s' := by
        simp only [receiverStep, pc, created, Option.map_some]
        exact ⟨_, rfl⟩
      exact going.advances_receiver next
  | waiting =>
      obtain ⟨packet, rest, inbox⟩ := List.exists_cons_of_ne_nil (busy pc)
      obtain ⟨s', next⟩ : ∃ s', receiverStep d.cfg fifo true s = some s' := by
        simp only [receiverStep, pc, fifo, inbox, Option.map_some]
        exact ⟨_, rfl⟩
      exact going.advances_receiver next
  | pushing details | spawning details =>
      obtain ⟨s', next⟩ : ∃ s', receiverStep d.cfg fifo true s = some s' := by
        simp only [receiverStep, pc]
        exact ⟨_, rfl⟩
      exact going.advances_receiver next

/-- The sender waits for replies and messages only. -/
theorem exists_senderStep (cfg : Config) (open_ : s.sender.pc ≠ .returned)
    (reply : s.sender.pc = .awaitingCompleted ∨ s.sender.pc.awaits ≠ none → s.chan.toSender ≠ [])
    (told : s.sender.pc = .waiting → s.shared.messages ≠ []) :
    ∃ s', senderStep cfg fifo s = some s' := by
  cases pc : s.sender.pc with
  | building =>
      simp only [senderStep, pc]
      split <;> exact ⟨_, rfl⟩
  | awaitingCompleted =>
      obtain ⟨packet, rest, inbox⟩ := List.exists_cons_of_ne_nil (reply (.inl pc))
      simp only [senderStep, pc, fifo, inbox, Option.map_some]
      exact ⟨_, rfl⟩
  | starting id details | retrying id details =>
      have waits : s.sender.pc.awaits ≠ none := by
        rw [pc]
        exact Option.some_ne_none id
      obtain ⟨packet, rest, inbox⟩ := List.exists_cons_of_ne_nil (reply (.inr waits))
      simp only [senderStep, pc, fifo, inbox, Option.map_some]
      exact ⟨_, rfl⟩
  | filling =>
      simp only [senderStep, pc]
      split
      next =>
        split <;> exact ⟨_, rfl⟩
      next => exact ⟨_, rfl⟩
  | waiting =>
      obtain ⟨message, rest, inbox⟩ := List.exists_cons_of_ne_nil (told pc)
      simp only [senderStep, pc, inbox]
      exact ⟨_, rfl⟩
  | allCompleted | finishing =>
      simp only [senderStep, pc]
      exact ⟨_, rfl⟩
  | returned => exact absurd pc open_

/-- A sender that waits for nothing goes on. -/
theorem Going.advances_free (going : Going d s) {pc : SenderPc} (here : s.sender.pc = pc)
    (open_ : pc ≠ .returned) (reply : pc ≠ .awaitingCompleted ∧ pc.awaits = none)
    (told : pc ≠ .waiting) : Advances d s := by
  subst here
  obtain ⟨s', next⟩ := exists_senderStep d.cfg open_
    (fun waits => (waits.elim reply.1 fun waits => waits reply.2).elim)
    fun waits => (told waits).elim
  exact going.advances_sender next

/-- A sender that has been replied to goes on. -/
theorem Going.advances_replied (going : Going d s) {pc : SenderPc} (here : s.sender.pc = pc)
    (open_ : pc ≠ .returned) (told : pc ≠ .waiting) {chan : Fifo} (same : s.chan = chan)
    (reply : chan.toSender ≠ []) : Advances d s := by
  subst here same
  obtain ⟨s', next⟩ := exists_senderStep d.cfg open_ (fun _ => reply)
    fun waits => (told waits).elim
  exact going.advances_sender next

/-- The receiver prepares. -/
theorem Going.advances_preparing (going : Going d s) {manifest : Manifest}
    (pc : s.receiver.pc = .preparing manifest) : Advances d s := by
  have handshake := going.paired.agreed.handshake
  rw [pc] at handshake
  obtain ⟨-, rfl, -⟩ := handshake.of_preparing
  have untouched := going.untouched (by rw [pc]; trivial)
  obtain ⟨s', next⟩ : ∃ s', receiverStep d.cfg fifo true s = some s' := by
    simp only [receiverStep, pc, untouched, d.prepared, Bool.not_true, Bool.and_false]
    exact ⟨_, rfl⟩
  exact going.advances_receiver next

/-- The receiver reads its first packet. -/
theorem Going.advances_awaiting (going : Going d s) (pc : s.receiver.pc = .awaitingManifest)
    {chan : Fifo} (same : s.chan = chan) (inbox : chan.toReceiver ≠ []) : Advances d s := by
  subst same
  obtain ⟨packet, rest, inbox⟩ := List.exists_cons_of_ne_nil inbox
  obtain ⟨s', next⟩ : ∃ s', receiverStep d.cfg fifo true s = some s' := by
    simp only [receiverStep, pc, fifo, inbox, Option.map_some]
    exact ⟨_, rfl⟩
  exact going.advances_receiver next

/-- A file that the sender counts as active is at work at the receiver, or has been reported. -/
theorem Going.advances_waiting (going : Going d s) (pc : s.sender.pc = .waiting) :
    Advances d s ∨ Parked s := by
  have handshake := going.paired.agreed.handshake
  rw [pc] at handshake
  obtain ⟨settled, chan⟩ := handshake
  by_cases messages : s.shared.messages = []
  · by_cases receiver : s.receiver.pc = .waiting
    · obtain ⟨entry, active⟩ := List.exists_mem_of_ne_nil _ (going.sending.running pc)
      have active : entry.1 ∈ s.sender.active := AList.mem_keys.mpr (List.mem_map_of_mem active)
      have open_ : s.sender.pc ≠ .returned := by
        rw [pc]
        exact SenderPc.noConfusion
      have counted := (going.tracked entry.1).expected open_ (.inl active)
      -- an active file has one attempt, and nothing of it is on its way
      rw [tokens, chan, messages, receiver] at counted
      obtain ⟨task, mem, own⟩ : ∃ task ∈ s.tasks,
          (decide (task.id = entry.1) && task.phase.isOpen) = true := by
        refine List.countP_pos_iff.mp (Nat.lt_of_lt_of_eq Nat.one_pos ?_)
        simpa [ReceiverPc.spawnCount, ReceiverPc.spawns, ReceiverPc.hand] using counted.symm
      obtain ⟨own, isOpen⟩ := Bool.and_eq_true_iff.mp own
      have own := of_decide_eq_true own
      by_cases waits : Lacks task
      · exact .inr ⟨pc, receiver, chan, task, mem, own ▸ active, waits⟩
      · exact .inl (going.advances_task receiver mem isOpen waits)
    · exact .inl (going.advances_settled settled fun waiting => absurd waiting receiver)
  · have quiet : ¬ (s.sender.pc = .awaitingCompleted ∨ s.sender.pc.awaits ≠ none) := by
      rw [pc]
      rintro (other | waits)
      · cases other
      · exact waits rfl
    have open_ : s.sender.pc ≠ .returned := by
      rw [pc]
      exact SenderPc.noConfusion
    obtain ⟨s', next⟩ := exists_senderStep d.cfg open_ (fun waits => absurd waits quiet)
      fun _ => messages
    exact .inl (going.advances_sender next)

/-- **Rest.**  The control part goes on, waits for jobs, or has returned. -/
theorem Going.progress (going : Going d s) :
    Advances d s ∨ Parked s ∨ (s.sender.pc = .returned ∧ s.receiver.pc = .returned) := by
  have handshake := going.paired.agreed.handshake
  cases pc : s.sender.pc with
  | building | allCompleted | filling | finishing =>
      exact .inl (going.advances_free pc SenderPc.noConfusion ⟨SenderPc.noConfusion, rfl⟩
        SenderPc.noConfusion)
  | awaitingCompleted =>
      rw [pc] at handshake
      rcases handshake with ⟨waits, chan⟩ | ⟨prepares, -⟩ | ⟨-, ids, chan⟩ | ⟨returned, -⟩
      · exact .inl (going.advances_awaiting waits chan (List.cons_ne_nil _ _))
      · exact .inl (going.advances_preparing prepares)
      · exact .inl (going.advances_replied pc SenderPc.noConfusion SenderPc.noConfusion chan
          (List.cons_ne_nil _ _))
      · cases pc.symm.trans (going.receiving.last returned)
  | starting id details =>
      rw [pc] at handshake
      rcases handshake with ⟨settled, chan⟩ | ⟨⟨file, replying, -⟩, -⟩ | ⟨-, index, chan⟩
      · refine .inl (going.advances_settled settled fun _ => ?_)
        rw [chan]
        exact List.cons_ne_nil _ _
      · obtain ⟨s', next⟩ : ∃ s', receiverStep d.cfg fifo true s = some s' := by
          simp only [receiverStep, replying]
          exact ⟨_, rfl⟩
        exact .inl (going.advances_receiver next)
      · exact .inl (going.advances_replied pc SenderPc.noConfusion SenderPc.noConfusion chan
          (List.cons_ne_nil _ _))
  | waiting => exact (going.advances_waiting pc).imp_right .inl
  | retrying id details => exact absurd pc (going.paired.unretried id details)
  | returned =>
      by_cases last : s.receiver.pc = .returned
      · exact .inr (.inr ⟨rfl, last⟩)
      · have told := going.sending.told pc last
        rw [pc] at handshake
        rcases handshake with ⟨waits, chan⟩ | ⟨settled, -⟩ | ⟨returned, -⟩
        · exact .inl (going.advances_awaiting waits chan (List.cons_ne_nil _ _))
        · exact .inl (going.advances_settled settled fun _ => told)
        · exact absurd returned last

end Control

end Cccp
