import Cccp.Control.Parked
import Cccp.Transfer.Progress
import Cccp.Whole

/-!
# The data path of the whole program

A run of the program in which nothing fails is, as far as its data path goes, a run of
`Cccp.Transfer.Model` in which nothing fails (`data_reached`): the two have the same sender's
tasks, network and confirmations, and what the data path says of an attempt is where its writer
task stands (`Refines`).  So what is kept there (`Transfer.Kept`) holds of the program.
-/

namespace Cccp

namespace Whole

open Control (Delivery Going)

/-- No party exits, there is enough space, and no operation of a task and no reader fails. -/
def Smooth (s : State) (action : Action) : Prop :=
  Via Control.Smooth s action ∧ ∀ reader, action ≠ .sender (.readerFails reader)

/-! ## Attempts -/

/-- The writer that a task has, is about to have, or has had. -/
def Writes (crates : CipherCrates) (task : WriterTask) (writer : Writer) : Prop :=
  match task.phase with
  | .opening | .seeking _ => ∀ cipher, task.details.crypto.makeCipher crates = .made cipher →
      writer = Writer.start task.details.startIndex cipher
  | .subscribing _ own | .receiving _ _ _ own => own = writer
  | _ => writer.position = task.details.size

/-- What the data path says of the attempt of a file.  Its writer is opened there when it takes
in its first job. -/
inductive Stage (tasks : List WriterTask) (details : FileDetails) (cipher : StreamCipher) :
    Transfer.Attempt → Writer → Prop
  | unstarted : Stage tasks details cipher .unstarted (Writer.start details.startIndex cipher)
  | starting : Stage tasks details cipher (.starting details.startIndex cipher)
      (Writer.start details.startIndex cipher)
  | running {task : WriterTask} (mem : task ∈ tasks) (own : task.id = details.id)
      (begun : task.phase.begins = false) (writer : Writer) :
      Stage tasks details cipher (.running details.startIndex writer) writer

/-- The sender's controller is done with starting the file. -/
structure Started (sender : Control.Sender) (id : UInt32) : Prop where
  pending : id ∉ sender.files
  awaited : sender.pc.awaits ≠ some id
  wanted : id ∉ sender.completed

/-- The data path of the program. -/
structure Refines (d : Delivery) (s : State) (t : Transfer.State) : Prop where
  flow : t.flow = s.flow
  network : t.network = s.network
  confirmations : t.confirmations = s.confirmations
  attempts : ∀ details ∈ d.files, ∃ cipher writer,
    details.crypto.makeCipher d.cfg.crates.cipher = .made cipher ∧
      Stage s.control.tasks details cipher (t.attempts details.id) writer ∧
      ∀ task ∈ s.control.tasks, task.id = details.id →
        Writes d.cfg.crates.cipher task writer
  /-- what is on the network is of files that have been started -/
  sent : ∀ datagram ∈ s.network, (Receiver.decodeFrame datagram).1 ∈ s.flow.started
  active : ∀ id ∈ s.control.sender.active, id ∈ s.flow.started
  early : s.control.sender.pc.Early → s.flow.started = []
  once : ∀ id ∈ s.flow.started, Started s.control.sender id
  listed : ∀ id ∈ s.flow.started, ∃ details ∈ d.files, details.id = id

variable {d : Delivery} {p : Program d.toSession} {s s' : State} {t : Transfer.State}

/-- Some steps of the data path, in which nothing fails, lead to that of the program. -/
def Followed (p : Program d.toSession) (t : Transfer.State) (s : State) : Prop :=
  ∃ t', (Transfer.machine p.data).Reaches (Transfer.Healthy p.data d.keystream) t t' ∧
    Refines d s t'

/-! ## Steps of the tasks -/

section Tasks

variable {crates : Crates} {shared shared' : Shared} {task task' : WriterTask}
  {writer : Writer} {details : FileDetails} {cipher : StreamCipher} {index : Nat}
  {tasks : List WriterTask} {attempt : Transfer.Attempt}

/-- An operation other than taking in a job leaves the writer as it is. -/
theorem writes_proceed (writes : Writes crates.cipher task writer)
    (move : task.Move crates shared .proceed shared' task') (fine : task'.phase.fine = true)
    (before : task.phase.fine = true) : Writes crates.cipher task' writer := by
  cases move with
  | opened phase =>
      rw [Writes, phase] at writes
      exact writes
  | seeked phase made =>
      rw [Writes, phase] at writes
      exact (writes _ made).symm
  | subscribed phase =>
      rw [Writes, phase] at writes
      exact writes
  | flushed phase complete =>
      rw [Writes, phase] at writes
      exact writes ▸ complete
  | popped phase =>
      rw [Writes, phase] at writes
      cases task.details.signature <;> exact writes
  | verified phase | moved phase | ended phase =>
      rw [Writes, phase] at writes
      exact writes
  | mismatched | keyPanicked | seekPanicked | sendPanicked | writeFailed | failed => cases fine
  | notified phase | removed phase | reported phase =>
      rw [phase] at before
      cases before

/-- A task that has subscribed stays so. -/
theorem begun_of_move {action : TaskAction} (move : task.Move crates shared action shared' task')
    (begun : task.phase.begins = false) : task'.phase.begins = false := by
  by_contra begins
  have before := (Control.begins_of_move move (by simpa using begins)).1
  rw [begun] at before
  cases before

/-- The writer of a file without a task has not started. -/
theorem Stage.writer_eq (stage : Stage tasks details cipher attempt writer)
    (fresh : ∀ task ∈ tasks, task.id ≠ details.id) :
    writer = Writer.start details.startIndex cipher := by
  cases stage with
  | unstarted | starting => rfl
  | running mem own => exact absurd own (fresh _ mem)

theorem Stage.mono {tasks' : List WriterTask} (stage : Stage tasks details cipher attempt writer)
    (kept : ∀ task ∈ tasks, task.phase.begins = false →
      ∃ task' ∈ tasks', task'.id = task.id ∧ task'.phase.begins = false) :
    Stage tasks' details cipher attempt writer := by
  cases stage with
  | unstarted => exact .unstarted
  | starting => exact .starting
  | running mem own begun writer =>
      obtain ⟨task', mem', same, begun'⟩ := kept _ mem begun
      exact .running mem' (same.trans own) begun' writer

/-- A step of a task leaves a task that has subscribed for every one there was. -/
theorem begun_set (here : tasks[index]? = some task) (same : task'.id = task.id)
    (begun : task.phase.begins = false → task'.phase.begins = false) :
    ∀ other ∈ tasks, other.phase.begins = false →
      ∃ other' ∈ tasks.set index task', other'.id = other.id ∧ other'.phase.begins = false := by
  intro other mem begun'
  obtain ⟨j, there⟩ := List.mem_iff_getElem?.mp mem
  by_cases moved : index = j
  · subst moved
    cases here.symm.trans there
    have inside := (List.getElem?_eq_some_iff.mp here).1
    exact ⟨task', List.mem_set inside task', same, begun begun'⟩
  · have kept : (tasks.set index task')[j]? = some other :=
      (List.getElem?_set_ne moved).trans there
    exact ⟨other, List.mem_of_getElem? kept, rfl, begun'⟩

end Tasks

/-! ## Steps of the control part -/

theorem readerOf_nil {cfg : Control.Config} (id : UInt32) (details : FileDetail) :
    Control.readerOf cfg id details [] = none := by
  unfold Control.readerOf
  split
  next listed => cases listed
  next => rfl

/-- No reader is spawned where the list of readers stays as it is. -/
theorem spawned_same {cfg : Control.Config} {before after : Control.Sender}
    (same : after.readers = before.readers) : Control.spawned cfg before after = none := by
  rw [Control.spawned, same, List.drop_length]
  split
  next => exact readerOf_nil _ _
  next => exact readerOf_nil _ _
  next => rfl

/-- A step of the control part other than taking in a job, without a new reader. -/
theorem Refines.control (refines : Refines d s t) (control : Control.State Control.Fifo)
    (tasks : ∀ details ∈ d.files, ∀ cipher writer,
      details.crypto.makeCipher d.cfg.crates.cipher = .made cipher →
        Stage s.control.tasks details cipher (t.attempts details.id) writer →
        (∀ task ∈ s.control.tasks, task.id = details.id →
          Writes d.cfg.crates.cipher task writer) →
        Stage control.tasks details cipher (t.attempts details.id) writer ∧
          ∀ task ∈ control.tasks, task.id = details.id →
            Writes d.cfg.crates.cipher task writer)
    (active : ∀ id ∈ control.sender.active, id ∈ s.control.sender.active)
    (early : control.sender.pc.Early → s.flow.started = [])
    (once : ∀ id ∈ s.flow.started, Started control.sender id) :
    Refines d { s with control := control } t := by
  refine ⟨refines.flow, refines.network, refines.confirmations, fun details mem => ?_,
    refines.sent, fun id mem => refines.active id (active id mem), early, once, refines.listed⟩
  obtain ⟨cipher, writer, made, stage, writes⟩ := refines.attempts details mem
  obtain ⟨stage, writes⟩ := tasks details mem cipher writer made stage writes
  exact ⟨cipher, writer, made, stage, writes⟩

theorem Refines.task (refines : Refines d s t) (going : Going d s.control)
    {index : Nat} {task task' : WriterTask} {shared' : Shared}
    (here : s.control.tasks[index]? = some task)
    (move : task.Move d.cfg.crates s.control.shared .proceed shared' task')
    (fine : task'.phase.fine = true) :
    Refines d { s with control := { s.control with
      shared := shared', tasks := s.control.tasks.set index task' } } t := by
  refine refines.control _ (fun details mem cipher writer made stage writes => ?_)
    (fun _ mem => mem) refines.early refines.once
  have same : task'.id = task.id := congrArg FileDetails.id move.details_eq
  refine ⟨stage.mono (begun_set here same (begun_of_move move)), fun other mem own => ?_⟩
  have there := List.mem_of_getElem? here
  rcases List.mem_or_eq_of_mem_set mem with mem | rfl
  · exact writes other mem own
  · exact writes_proceed (writes task there (same ▸ own)) move fine
      (going.receiving.fine task there)

theorem Refines.receiver (refines : Refines d s t) (going : Going d s.control)
    {control : Control.State Control.Fifo} (move : Control.ReceiverMove d.cfg s.control control) :
    Refines d { s with control := control } t := by
  have sender := move.sender_eq
  refine refines.control _ (fun details mem cipher writer made stage writes => ?_)
    (fun id mem => sender ▸ mem) (sender ▸ refines.early) (sender ▸ refines.once)
  cases move with
  | @spawn file pc =>
      refine ⟨stage.mono fun task mem begun =>
        ⟨task, List.mem_append_left _ mem, rfl, begun⟩, fun task there own => ?_⟩
      rcases List.mem_append.mp there with there | new
      · exact writes task there own
      · obtain rfl := List.mem_singleton.mp new
        have fresh := going.inv.fresh file.id (by
          rw [pc]
          simp [Control.ReceiverPc.spawnCount, Control.ReceiverPc.spawns, Control.ReceiverPc.hand])
        have listed := going.inv.hand file (by rw [pc]; rfl)
        obtain rfl := Control.Reception.eq_of_id mem listed own
        intro cipher' made'
        cases made.symm.trans made'
        exact stage.writer_eq fresh
  | _ => exact ⟨stage, writes⟩

/-- The sender starts nothing. -/
theorem Refines.sender (refines : Refines d s t) {control : Control.State Control.Fifo}
    (tasks : control.tasks = s.control.tasks)
    (active : ∀ id ∈ control.sender.active, id ∈ s.control.sender.active)
    (files : ∀ id ∈ control.sender.files, id ∈ s.control.sender.files)
    (awaits : ∀ id, control.sender.pc.awaits = some id → id ∈ s.control.sender.files)
    (early : control.sender.pc.Early → s.control.sender.pc.Early)
    (completed : control.sender.completed = s.control.sender.completed ∨
      s.control.sender.pc.Early) :
    Refines d { s with control := control } t := by
  refine refines.control _ (fun details mem cipher writer made stage writes => ?_) active
    (fun before => refines.early (early before)) fun id mem => ?_
  · rw [tasks]
    exact ⟨stage, writes⟩
  · obtain ⟨pending, -, wanted⟩ := refines.once id mem
    refine ⟨fun there => pending (files id there), fun waits => pending (awaits id waits), ?_⟩
    rcases completed with same | before
    · rwa [same]
    · rw [refines.early before] at mem
      cases mem

/-- What has been answered is started. -/
theorem Refines.started (refines : Refines d s t) {details : FileDetails} (mem : details ∈ d.files)
    {cipher : StreamCipher}
    (made : details.crypto.makeCipher d.cfg.crates.cipher = .made cipher)
    (fresh : details.id ∉ s.flow.started) (unstarted : t.attempts details.id = .unstarted)
    {control : Control.State Control.Fifo} (tasks : control.tasks = s.control.tasks)
    (active : ∀ id ∈ control.sender.active, id ∈ s.control.sender.active ∨ id = details.id)
    (files : ∀ id ∈ control.sender.files, id ∈ s.control.sender.files ∧ id ≠ details.id)
    (free : control.sender.pc.Free)
    (completed : control.sender.completed = s.control.sender.completed)
    (wanted : details.id ∉ s.control.sender.completed) :
    Refines d
      { s with
        control := control
        flow := s.flow.spawn details.id (p.file details.id) details.startIndex cipher }
      ((t.setFlow (t.flow.spawn details.id (p.data.source details.id) details.startIndex
        cipher)).setAttempt details.id (.starting details.startIndex cipher)) := by
  have grown : ∀ id ∈ s.flow.started ++ [details.id], id ∈ s.flow.started ∨ id = details.id :=
    fun id there => (List.mem_append.mp there).imp_right List.mem_singleton.mp
  refine ⟨?_, refines.network, refines.confirmations, fun other there => ?_,
    fun datagram sent => ?_, fun id there => ?_, fun before => absurd before free.not_early, fun id there => ?_,
    fun id there => ?_⟩
  · rw [← refines.flow]
    rfl
  · obtain ⟨cipher', writer, made', stage, writes⟩ := refines.attempts other there
    dsimp only
    rw [tasks]
    by_cases own : other.id = details.id
    · obtain rfl := Control.Reception.eq_of_id mem there own
      cases made.symm.trans made'
      rw [unstarted] at stage
      cases stage
      rw [Transfer.setAttempt_self]
      exact ⟨cipher, _, made, .starting, writes⟩
    · rw [Transfer.setAttempt_ne _ own]
      exact ⟨cipher', writer, made', stage, writes⟩
  · exact List.mem_append_left _ (refines.sent datagram sent)
  · exact List.mem_append.mpr ((active id there).imp (refines.active id) List.mem_singleton.mpr)
  · refine ⟨fun pending => ?_, fun waits => ?_, fun there' => ?_⟩
    · obtain ⟨before, apart⟩ := files id pending
      rcases grown id there with old | new
      · exact (refines.once id old).pending before
      · exact apart new
    · cases waits.symm.trans free.awaits
    · rw [completed] at there'
      rcases grown id there with old | rfl
      · exact (refines.once id old).wanted there'
      · exact wanted there'
  · rcases grown id there with old | rfl
    · exact refines.listed id old
    · exact ⟨details, mem, rfl⟩

/-- The sender spawns a reader for the file it has been answered for. -/
theorem spawned_started {cfg : Control.Config} {before after : Control.Sender} {id : UInt32}
    {details : FileDetail} {index : UInt64} {cipher : StreamCipher}
    (pc : before.pc = .starting id details)
    (made : details.crypto.makeCipher cfg.crates.cipher = .made cipher)
    (readers : after.readers = before.readers ++ [(id, index)]) :
    Control.spawned cfg before after = some (id, index, cipher) := by
  rw [Control.spawned, pc]
  dsimp only
  rw [readers, List.drop_left]
  unfold Control.readerOf
  rw [made]

/-- A step of the sender's controller. -/
theorem Refines.senderStep (refines : Refines d s t) (going : Going d s.control)
    (kept : Transfer.Kept p.data d.keystream t)
    (reached : d.machine.ReachableVia d.Fed s.control)
    {control : Control.State Control.Fifo} (move : Control.SenderAdvance d.cfg s.control control)
    (next : d.machine.step s.control .sender = some control) :
    Followed p t
      { s with
        control := control
        flow := p.start s.flow (Control.spawned d.cfg s.control.sender control.sender) } := by
  have idle : control.sender.readers = s.control.sender.readers →
      Refines d { s with control := control } t →
      Followed p t
        { s with
          control := control
          flow := p.start s.flow (Control.spawned d.cfg s.control.sender control.sender) } := by
    intro readers refines
    rw [spawned_same readers]
    exact ⟨t, .refl, refines⟩
  cases move with
  | nothing | allCompleted | full | finish =>
      exact idle rfl (refines.sender rfl (fun _ mem => mem) (fun _ mem => mem) (by rintro _ ⟨⟩)
        (fun before => before.elim) (.inl rfl))
  | manifest pc =>
      have before : s.control.sender.pc.Early := by
        rw [pc]
        trivial
      exact idle rfl (refines.sender rfl (fun _ mem => mem) (fun _ mem => mem) (by rintro _ ⟨⟩)
        (fun _ => before) (.inl rfl))
  | skip pc =>
      refine idle rfl (refines.sender rfl (fun _ mem => mem) (fun _ mem => mem) (fun id waits => ?_)
        (fun before => before) (.inl rfl))
      have none_ : s.control.sender.pc.awaits = none := by rw [pc]; rfl
      cases waits.symm.trans none_
  | @completed ids rest pc inbox =>
      have before : s.control.sender.pc.Early := by
        rw [pc]
        trivial
      refine idle rfl (refines.sender rfl (fun _ mem => mem)
        (fun _ mem => (Control.mem_foldl_erase.mp mem).1) (fun id waits => ?_) (fun _ => before)
        (.inr before))
      have none_ : (s.control.sender.complete ids).pc.awaits = none := by
        rw [Control.Sender.complete]
        split <;> rfl
      cases waits.symm.trans none_
  | @start details pc found =>
      refine idle rfl (refines.sender rfl (fun _ mem => mem)
        (fun _ mem => (AList.mem_erase.mp mem).2) ?_ (fun before => before.elim) (.inl rfl))
      rintro _ ⟨⟩
      exact AList.lookup_isSome.mp (Option.isSome_of_eq_some found)
  | @told id rest pc inbox =>
      have free := Control.Sender.afterMessage_free
        { s.control.sender with active := s.control.sender.active.erase id }
      refine idle rfl (refines.sender rfl (fun _ mem => (AList.mem_erase.mp mem).2)
        (fun _ mem => mem) (fun other waits => ?_) (fun before => absurd before free.not_early)
        (.inl rfl))
      cases waits.symm.trans free.awaits
  | @started id details index rest pc inbox =>
      have waits : s.control.sender.pc.awaits = some id := by rw [pc]; rfl
      have fresh : id ∉ s.flow.started := fun mem => (refines.once id mem).awaited waits
      obtain ⟨cipher, made, -⟩ :=
        going.ready.ciphers id details (going.paired.kept.asked id details (.inl pc))
      have run := reached.mono fun s action => @Delivery.allows_of_fed d s action
      obtain ⟨file, mem, rfl, rfl, made'⟩ :=
        Control.spawned_reader run next (spawned_started pc made rfl)
      have unstarted := kept.carried.unstarted file.id (refines.flow ▸ fresh)
      obtain ⟨begins, within, -⟩ := Delivery.leftover_eq (d := d) mem
      have lasts : Transfer.Lasts p.data file.id cipher := fun n ends =>
        d.whole file mem ▸ ((going.ready.exists_cipher mem).2 cipher n made' ends).2
      have late : s.control.sender.pc.Late := by
        rw [pc]
        trivial
      have wanted := ((going.paired.agreed.late late file.id).mp
        (going.paired.agreed.wanted late file.id (.inr (.inr waits)))).2
      rw [spawned_started pc made rfl, Program.start]
      dsimp only
      rw [if_neg fresh]
      refine ⟨_, .single (a := .start file.id file.startIndex cipher)
        ⟨⟨d.keyed file mem cipher made', begins, within⟩, rfl, rfl, lasts⟩
        (if_neg (refines.flow ▸ fresh)), ?_⟩
      refine refines.started mem made' fresh unstarted rfl (fun other there => ?_)
        (fun other there => ⟨there, ?_⟩) trivial rfl wanted
      · exact ((AList.mem_insert _).mp there).symm
      · rintro rfl
        exact (going.tracked file.id).apart there (.inr waits)

/-- A step of the control part. -/
theorem Refines.controlStep (refines : Refines d s t) (going : Going d s.control)
    (kept : Transfer.Kept p.data d.keystream t)
    (reached : d.machine.ReachableVia d.Fed s.control) {action : Control.Action}
    (smooth : Control.Smooth s.control action) (other : takesJob action = false)
    {control : Control.State Control.Fifo}
    (next : d.machine.step s.control action = some control) :
    Followed p t
      { s with
        control := control
        flow := p.start s.flow (Control.spawned d.cfg s.control.sender control.sender) } := by
  cases action with
  | senderExit | receiverExit => exact smooth.elim
  | sender =>
      have moved : Control.senderStep d.cfg Control.fifo s.control = some control :=
        (if_pos going.sending.alive).symm.trans next
      exact refines.senderStep going kept reached
        (going.paired.sender going.ready going.sending going.receiving moved) next
  | receiver space =>
      obtain rfl : space = true := smooth
      have moved : Control.receiverStep d.cfg Control.fifo true s.control = some control :=
        (if_pos going.receiving.alive).symm.trans next
      obtain ⟨move, -⟩ := going.paired.receiver going.receiving.alive going.untouched moved
      rw [spawned_same (congrArg Control.Sender.readers move.sender_eq)]
      exact ⟨t, .refl, refines.receiver going move⟩
  | task index action =>
      obtain ⟨task, shared', task', here, stepped, rfl⟩ := Control.PerFile.step_task next
      have succeeds := smooth task here
      cases action with
      | job | jobFail => cases other
      | fail => exact succeeds.elim
      | proceed =>
          have fine := (Control.fine_of_smooth going.ready going.inv going.receiving here
            succeeds stepped).1
          rw [spawned_same rfl]
          exact ⟨t, .refl, refines.task going here (WriterTask.step_cases stepped) fine⟩

/-! ## Steps of the data path -/

/-- The jobs in memory are of files that have been started. -/
theorem each_started (kept : Transfer.Kept p.data d.keystream t) :
    Flow.Each (fun job => (Receiver.decodeFrame job.data).1 ∈ t.flow.started) t.flow := by
  have started : ∀ job : Sender.Job, Flow.key job ∈ Flow.keys t.flow → Transfer.Labelled job →
      (Receiver.decodeFrame job.data).1 ∈ t.flow.started := by
    intro job mem labelled
    have copied := Flow.count_keys (Flow.key job) t.flow ▸ List.count_pos_iff.mpr mem
    rw [labelled.1]
    exact kept.accounted.known.2 _ ((Flow.mem_produced_iff kept.accounted).mpr (.inl copied))
  obtain ⟨queued, held, cached⟩ := kept.supplied.labelled
  refine ⟨fun job mem => started job ?_ (queued job mem),
    fun task mem job holds => started job ?_ (held task mem job holds),
    fun k job found => started job ?_ (cached k job found)⟩
  · exact List.mem_append_left _ (List.mem_append_left _ (List.mem_map_of_mem mem))
  · refine List.mem_append_left _ (List.mem_append_right _ (List.mem_filterMap.mpr ⟨task, mem, ?_⟩))
    rw [holds, Option.map_some]
  · refine List.mem_append_right _ (AList.mem_keys.mp (AList.lookup_isSome.mp ?_))
    rw [kept.accounted.keyed k job found, found]
    rfl

/-- The sender's tasks go on. -/
theorem Refines.goOn (refines : Refines d s t) {flow : Flow.State}
    (started : flow.started = s.flow.started) (network : List Bytes)
    (sent : ∀ datagram ∈ network, (Receiver.decodeFrame datagram).1 ∈ s.flow.started)
    (confirmations : List ChunkKey) :
    Refines d { s with flow := flow, network := network, confirmations := confirmations }
      { t with flow := flow, network := network, confirmations := confirmations } := by
  refine ⟨rfl, rfl, rfl, refines.attempts, ?_, ?_, ?_, ?_, ?_⟩ <;> dsimp only <;> rw [started]
  · exact sent
  · exact refines.active
  · exact refines.early
  · exact refines.once
  · exact refines.listed

/-- A step of the sender's tasks. -/
theorem Refines.flowed (refines : Refines d s t) (kept : Transfer.Kept p.data d.keystream t)
    {action : Flow.Action} (own : action.isOwn = true) {flow : Flow.State}
    (next : Flow.step p.flow s.flow action = some flow) :
    Refines d { s with flow := flow, network := s.network ++ Transfer.datagrams s.flow action }
      { t.setFlow flow with network := t.network ++ Transfer.datagrams t.flow action } := by
  have known := each_started kept
  rw [refines.flow] at known
  have started : flow.started = s.flow.started :=
    @Transfer.started_flow p.data s.view _ _ (Transfer.starts_of_isOwn own)
      (Flow.step_cases next)
  rw [refines.network, refines.flow, ← refines.confirmations]
  refine refines.goOn started _ (fun datagram mem => ?_) t.confirmations
  rcases List.mem_append.mp mem with mem | new
  · exact refines.sent datagram mem
  · exact Transfer.each_datagrams (s := s.view)
      (P := fun data => (Receiver.decodeFrame data).1 ∈ s.flow.started) known action datagram new

theorem Refines.confirmed (refines : Refines d s t) (key : ChunkKey) :
    Refines d
      { s with
        flow := Flow.confirm s.flow key
        confirmations := s.confirmations.erase key }
      ({ t with confirmations := t.confirmations.erase key }.setFlow
        (Flow.confirm t.flow key)) := by
  have started : (Flow.confirm s.flow key).started = s.flow.started := by
    rw [Flow.confirm]
    split <;> rfl
  rw [refines.flow, refines.confirmations, ← refines.network]
  exact refines.goOn started t.network (refines.network ▸ refines.sent) _

theorem size_eq {details : FileDetails} (mem : details ∈ d.files) :
    p.data.size details.id = details.size := by
  change UInt64.ofNat (d.source details.id).length = details.size
  rw [← d.whole details mem]
  exact UInt64.ofNat_toNat

/-- The data path opens the writer of a task that has subscribed. -/
theorem Refines.open_ (refines : Refines d s t) {task : WriterTask} (mem : task ∈ s.control.tasks)
    (listed : task.details ∈ d.files) (begun : task.phase.begins = false) {first : UInt64}
    {cipher : StreamCipher} (here : t.attempts task.id = .starting first cipher) :
    Refines d s (t.setAttempt task.id (.running first (Writer.start first cipher))) := by
  refine ⟨refines.flow, refines.network, refines.confirmations, fun details there => ?_,
    refines.sent, refines.active, refines.early, refines.once, refines.listed⟩
  obtain ⟨cipher', writer, made, stage, writes⟩ := refines.attempts details there
  refine ⟨cipher', writer, made, ?_, writes⟩
  by_cases own : details.id = task.id
  · obtain rfl := Control.Reception.eq_of_id listed there own
    rw [show t.attempts task.details.id = _ from here] at stage
    cases stage
    rw [show task.details.id = task.id from rfl, Transfer.setAttempt_self]
    exact .running mem rfl begun _
  · rw [Transfer.setAttempt_ne _ own]
    exact stage

/-- A task and its writer on the data path take in a job. -/
theorem Refines.handle (refines : Refines d s t) (going : Going d s.control) {index : Nat}
    {task : WriterTask} (here : s.control.tasks[index]? = some task) {file queue : Nat}
    {buffered : Bytes} {w : Writer} (phase : task.phase = .receiving file queue buffered w)
    {first : UInt64} (attempt : t.attempts task.id = .running first w) (job : Receiver.Job)
    (shared' : Shared) (buffered' : Bytes) :
    Refines d
      { s with
        control := { s.control with
          shared := shared'
          tasks := s.control.tasks.set index
            (task.goto (.receiving file queue buffered' (w.handle task.details.size job))) }
        confirmations := s.confirmations ++ confirmedBy task job none }
      ((t.confirmAll task.id w (w.handle task.details.size job)).setAttempt task.id
        (.running first (w.handle task.details.size job))) := by
  have listed := (going.inv.holds.running task (List.mem_of_getElem? here)).1
  have inside := (List.getElem?_eq_some_iff.mp here).1
  have confirmed : confirmedBy task job none =
      ((w.handle task.details.size job).confirmed.drop w.confirmed.length).map
        fun index => (task.id, index) := by
    rw [confirmedBy, phase]
    rfl
  refine ⟨refines.flow, refines.network, ?_, fun details there => ?_, refines.sent, refines.active,
    refines.early, refines.once, refines.listed⟩
  · rw [confirmed, ← refines.confirmations]
    rfl
  · obtain ⟨cipher, writer, made, stage, writes⟩ := refines.attempts details there
    by_cases own : details.id = task.id
    · obtain rfl := Control.Reception.eq_of_id listed there own
      rw [show t.attempts task.details.id = _ from attempt] at stage
      refine ⟨cipher, w.handle task.details.size job, made, ?_, fun other mem own => ?_⟩
      · cases stage
        rw [show task.details.id = task.id from rfl, Transfer.setAttempt_self]
        exact .running (List.mem_set inside _) rfl rfl _
      · obtain ⟨j, there⟩ := List.mem_iff_getElem?.mp mem
        by_cases moved : index = j
        · subst moved
          rw [List.getElem?_set_self inside] at there
          cases there
          rfl
        · rw [List.getElem?_set_ne moved] at there
          exact absurd (going.inv.single here j other there own).symm moved
    · refine ⟨cipher, writer, made, ?_, fun other mem own' => ?_⟩
      · rw [Transfer.setAttempt_ne _ own]
        exact stage.mono (begun_set here rfl fun _ => rfl)
      · rcases List.mem_or_eq_of_mem_set mem with mem | rfl
        · exact writes other mem own'
        · exact absurd own'.symm own

/-- A datagram arrives at a writer that takes it in. -/
theorem Refines.arrives (refines : Refines d s t) {datagram : Bytes} {n : Nat}
    (sent : s.network[n]? = some datagram) {details : FileDetails} (mem : details ∈ d.files)
    (own : (Receiver.decodeFrame datagram).1 = details.id) {first : UInt64} {w : Writer}
    (here : t.attempts details.id = .running first w) (running : w.position ≠ details.size) :
    Transfer.step p.data t (.deliver n) = some ((t.confirmAll details.id w
      (w.handle details.size (Receiver.decodeFrame datagram).2)).setAttempt details.id
        (.running first (w.handle details.size (Receiver.decodeFrame datagram).2))) := by
  rw [Transfer.step, refines.network, sent, Option.map_some, Transfer.arrive]
  dsimp only
  rw [own, here]
  dsimp only
  rw [size_eq mem, if_neg running]

/-- A task takes in a job. -/
theorem Refines.deliver (refines : Refines d s t) (going : Going d s.control)
    (kept : Transfer.Kept p.data d.keystream t)
    {datagram : Bytes} {n : Nat} (sent : s.network[n]? = some datagram)
    {index : Nat} {task : WriterTask} (here : s.control.tasks[index]? = some task)
    (own : (Receiver.decodeFrame datagram).1 = task.id) {passed : Nat}
    {shared' : Shared} {task' : WriterTask}
    (move : task.Move d.cfg.crates s.control.shared
      (.job (Receiver.decodeFrame datagram).2 passed) shared' task')
    (fine : task'.phase.fine = true) :
    Followed p t
      { s with
        control := { s.control with
          shared := shared', tasks := s.control.tasks.set index task' }
        confirmations := s.confirmations ++
          confirmedBy task (Receiver.decodeFrame datagram).2 none } := by
  cases move with
  | keystreamPanicked | writeFailed | failed => cases fine
  | @received file queue buffered w phase running job lasts =>
      have mem := List.mem_of_getElem? here
      have listed := (going.inv.holds.running task mem).1
      have begun : task.phase.begins = false := by
        rw [phase]
        rfl
      obtain ⟨cipher, writer, made, stage, writes⟩ := refines.attempts task.details listed
      have same := writes task mem rfl
      rw [Writes, phase] at same
      subst same
      have known := refines.sent datagram (List.mem_of_getElem? sent)
      rw [own, ← refines.flow] at known
      have live := kept.supplied.live task.id known
      generalize attempt : t.attempts task.details.id = now at stage
      cases stage with
      | unstarted =>
          rw [show t.attempts task.id = _ from attempt] at live
          cases live
      | starting =>
          have opened : Transfer.step p.data t (.open_ task.id) = some (t.setAttempt task.id
              (.running task.details.startIndex
                (Writer.start task.details.startIndex cipher))) := by
            rw [Transfer.step, show t.attempts task.id = _ from attempt]
          have refines := refines.open_ mem listed begun attempt
          have attempt := Transfer.setAttempt_self t task.id (.running task.details.startIndex
            (Writer.start task.details.startIndex cipher))
          exact ⟨_, .head ⟨.open_ task.id, ⟨trivial, rfl, rfl, trivial⟩, opened⟩
              (Machine.Reaches.single (a := .deliver n) ⟨trivial, rfl, rfl, trivial⟩
                (refines.arrives sent listed own attempt running)),
            refines.handle going here phase attempt _ _ _⟩
      | running _ _ _ _ =>
          exact ⟨_, .single (a := .deliver n) ⟨trivial, rfl, rfl, trivial⟩
              (refines.arrives sent listed own attempt running),
            refines.handle going here phase attempt _ _ _⟩

/-! ## Runs -/

theorem refines_init (p : Program d.toSession) (ready : d.Ready) :
    Refines d p.initial (Transfer.initial p.data) where
  flow := rfl
  network := rfl
  confirmations := rfl
  attempts details mem := by
    obtain ⟨file, listed, same, -⟩ := Control.listed_of_prepared d.prepared mem
    obtain ⟨cipher, made, -⟩ := ready.ciphers _ file listed
    exact ⟨cipher, _, same ▸ made, .unstarted, fun task there => absurd there List.not_mem_nil⟩
  sent _ mem := absurd mem List.not_mem_nil
  active _ mem := absurd mem (AList.notMem_empty _)
  early _ := rfl
  once _ mem := absurd mem List.not_mem_nil
  listed _ mem := absurd mem List.not_mem_nil

/-- A smooth step. -/
theorem Refines.step (refines : Refines d s t) (going : Going d s.control)
    (kept : Transfer.Kept p.data d.keystream t)
    (reached : d.machine.ReachableVia d.Fed s.control) {action : Action} (smooth : Smooth s action)
    (next : p.machine.step s action = some s') :
    Followed p t s' := by
  obtain ⟨smooth, reads⟩ := smooth
  cases action with
  | control action =>
      simp only [Program.machine, Program.step] at next
      split at next
      next => cases next
      next other =>
        obtain ⟨control, moved, rfl⟩ := Option.map_eq_some_iff.mp next
        exact refines.controlStep going kept reached (smooth action rfl) (by simpa using other)
          moved
  | deliver datagram index passed failure =>
      simp only [Program.machine, Program.step] at next
      split at next
      next bytes task sent here =>
        split at next
        next own =>
          obtain ⟨control, moved, rfl⟩ := Option.map_eq_some_iff.mp next
          have smooth := smooth (.task index (takeIn (Receiver.decodeFrame bytes).2 passed failure))
            (by rw [Action.inControl, sent]; rfl) task here
          obtain ⟨other, shared', task', there, stepped, rfl⟩ := Control.PerFile.step_task moved
          cases here.symm.trans there
          cases failure with
          | some failure => exact smooth.elim
          | none =>
              have fine := (Control.fine_of_smooth going.ready going.inv going.receiving here
                smooth stepped).1
              exact refines.deliver going kept sent here own (WriterTask.step_cases stepped) fine
        next => cases next
      next => cases next
  | sender action =>
      simp only [Program.machine, Program.step] at next
      split at next
      next enabled =>
        obtain ⟨flow, moved, rfl⟩ := Option.map_eq_some_iff.mp next
        have own := (Bool.and_eq_true_iff.mp enabled).2
        have healthy : Transfer.Healthy p.data d.keystream t (.sender action) := by
          refine ⟨trivial, rfl, ?_, trivial⟩
          cases action with
          | readerFails reader => exact absurd rfl (reads reader)
          | _ => rfl
        refine ⟨_, .single healthy ?_, refines.flowed kept own moved⟩
        rw [← refines.flow] at moved
        change Transfer.step p.data t (.sender action) = _
        rw [Transfer.step, if_pos own,
          show Flow.step p.data.flow t.flow action = some flow from moved]
        rfl
      next => cases next
  | confirm key =>
      simp only [Program.machine, Program.step] at next
      split at next
      next enabled =>
        cases next
        have mem := of_decide_eq_true (Bool.and_eq_true_iff.mp enabled).2
        exact ⟨_, .single (a := .confirm key) ⟨trivial, rfl, rfl, trivial⟩
          (if_pos (refines.confirmations ▸ mem)), refines.confirmed key⟩
      next => cases next

theorem whole_size (id : UInt32) :
    (p.data.size id).toNat = (p.data.source id).contents.length := by
  exact UInt64.toNat_ofNat_of_lt' (Nat.lt_of_lt_of_le (p.fits id) (by decide))

/-- **The data path.**  A run in which nothing fails is one of the data path in which nothing
fails. -/
theorem data_reached (ready : d.Ready) (reached : p.machine.ReachableVia Smooth s) :
    Going d s.control ∧ ∃ t,
      (Transfer.machine p.data).ReachableVia (Transfer.Healthy p.data d.keystream) t ∧
        Refines d s t := by
  have run := (control_reached (reached.mono fun _ _ smooth => smooth.1)).2
  refine ⟨Control.going_of_reached ready run, ?_⟩
  refine @Machine.ReachableVia.invariant _ _ _ _ (fun s => ∃ t,
    (Transfer.machine p.data).ReachableVia (Transfer.Healthy p.data d.keystream) t ∧
      Refines d s t) ?_ ?_ _ reached
  · rintro s rfl
    exact ⟨Transfer.initial p.data, .init rfl, refines_init p ready⟩
  · rintro s action s' reached ⟨t, runs, refines⟩ smooth next
    have run := (control_reached (reached.mono fun _ _ smooth => smooth.1)).2
    have fed := run.mono fun _ _ fine => fine.1
    obtain ⟨t', reaches, refines⟩ := refines.step (Control.going_of_reached ready run)
      (Transfer.kept_reached whole_size runs) fed smooth next
    exact ⟨t', runs.reaches reaches, refines⟩

end Whole

end Cccp
