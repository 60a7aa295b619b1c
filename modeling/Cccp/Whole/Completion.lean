import Cccp.Whole.DataPath

/-!
# The whole transfer can be completed

From every state of a run in which nothing has failed, whatever was lost, doubled or reordered on
the way there, some steps lead to the end: both controllers return, and every file that was asked
for is at its destination (`whole_completable`).

The control part goes on by itself until it waits for jobs (`Control.Going.progress`).  There the
steps forward of the data path are steps of the program (`exists_lift`), and they lead to where
every writer has all of its file (`Transfer.Landed`), so that the control part goes on again.
-/

namespace Cccp

namespace Whole

open Control (Session Delivery Mirror Going)

/-- Nothing fails, and the `BufWriter`s pass on what they must. -/
def Undisturbed (s : State) (action : Action) : Prop :=
  Smooth s action ∧ Via Control.Buffers s action

/-- All files that have been started have writer tasks that take in jobs, or have done so. -/
def Begun (s : State) : Prop :=
  ∀ id ∈ s.flow.started, ∃ task ∈ s.control.tasks, task.id = id ∧ task.phase.begins = false

variable {d : Delivery} {p : Program d.toSession} {s s' : State} {t t' : Transfer.State}

/-- Some steps of the program, of which its control part sees no more than jobs, lead to where
its data path is this one. -/
def Lifted (p : Program d.toSession) (s : State) (t : Transfer.State) : Prop :=
  ∃ s', p.machine.Reaches Undisturbed s s' ∧ Refines d s' t ∧ Begun s' ∧
    s'.control.sender = s.control.sender ∧ Control.rank s'.control = Control.rank s.control

theorem smooth_reaches (reached : p.machine.ReachableVia Smooth s)
    (reaches : p.machine.Reaches Undisturbed s s') : p.machine.ReachableVia Smooth s' :=
  reached.reaches (reaches.mono fun _ _ undisturbed => undisturbed.1)

/-! ## Steps of the data path are steps of the program -/

/-- The task whose writer the data path runs. -/
theorem Refines.receiving (refines : Refines d s t) {details : FileDetails}
    (mem : details ∈ d.files) {first : UInt64} {w : Writer} (here : t.attempts details.id = .running first w)
    (running : w.position ≠ details.size) (going : Going d s.control) :
    ∃ (index : Nat) (task : WriterTask) (file queue : Nat) (buffered : Bytes),
      s.control.tasks[index]? = some task ∧ task.details = details ∧
        task.phase = .receiving file queue buffered w := by
  obtain ⟨cipher, writer, made, stage, writes⟩ := refines.attempts details mem
  rw [here] at stage
  cases stage with
  | @running task there own begun =>
      obtain ⟨index, found⟩ := List.mem_iff_getElem?.mp there
      have same := Control.Reception.eq_of_id mem (going.inv.holds.running task there).1 own
      have writes := writes task there own
      rw [Writes] at writes
      cases phase : task.phase with
      | opening | seeking | subscribing =>
          rw [phase] at begun
          cases begun
      | receiving file queue buffered own =>
          rw [phase] at writes
          exact ⟨index, task, file, queue, buffered, found, same, writes ▸ phase⟩
      | _ =>
          rw [phase, same] at writes
          exact absurd writes running

/-- A task of the program takes in what its writer on the data path takes in. -/
theorem exists_deliver (going : Going d s.control) {n : Nat} {datagram : Bytes}
    (sent : s.network[n]? = some datagram) {index : Nat} {task : WriterTask}
    (here : s.control.tasks[index]? = some task)
    (own : (Receiver.decodeFrame datagram).1 = task.id) {file queue : Nat} {buffered : Bytes}
    {w : Writer} (phase : task.phase = .receiving file queue buffered w)
    (running : w.position ≠ task.details.size) :
    ∃ action shared' buffered', shared'.messages = s.control.shared.messages ∧
      Undisturbed s action ∧ p.machine.step s action = some
      { s with
        control := { s.control with
          shared := shared'
          tasks := s.control.tasks.set index (task.goto (.receiving file queue buffered'
            (w.handle task.details.size (Receiver.decodeFrame datagram).2))) }
        confirmations := s.confirmations ++
          confirmedBy task (Receiver.decodeFrame datagram).2 none } := by
  let job := (Receiver.decodeFrame datagram).2
  let passed := w.passes task.details.size buffered.length job
  let held := WriterTask.buffer buffered w (w.handle task.details.size job)
  have taken : ∀ step, Action.inControl s (.deliver n index passed none) = some step →
      step = .task index (.job job passed) := by
    intro step found
    rw [Action.inControl, sent] at found
    exact (Option.some.inj found).symm
  have data : ∀ reader, Action.deliver n index passed none ≠ .sender (.readerFails reader) :=
    fun _ => Action.noConfusion
  refine ⟨.deliver n index passed none, s.control.shared.setDisk
      (s.control.shared.disk.append file (held.take passed)), held.drop passed,
    rfl, ⟨⟨fun step found => ?_, data⟩, fun step found => ?_⟩, ?_⟩
  · rw [taken step found]
    exact fun _ _ => trivial
  · rw [taken step found]
    intro other there
    cases here.symm.trans there
    rw [WriterTask.Buffers, phase]
  · have living := going.receiving.living task (List.mem_of_getElem? here)
    rw [phase] at living
    have lasts : (w.handle task.details.size job).ranOut = false :=
      (Writer.Covered.handle living job).ranOut_eq_false
    have stepped : d.machine.step s.control (.task index (.job job passed)) = _ :=
      if_pos going.receiving.alive
    simp only [Control.taskStep, here, Option.bind_some, WriterTask.step, WriterTask.receive, phase,
      if_neg running, lasts, Bool.false_eq_true, if_false, Option.map_some] at stepped
    simp only [Program.machine, Program.step, sent, here, if_pos own, takeIn]
    rw [stepped]
    rfl

theorem undisturbed_of_data {action : Action} (data : action.inControl s = none)
    (reads : ∀ reader, action ≠ .sender (.readerFails reader)) : Undisturbed s action := by
  have never : ∀ step, action.inControl s ≠ some step := by
    intro step found
    cases data.symm.trans found
  exact ⟨⟨fun step found => absurd found (never step), reads⟩,
    fun step found => absurd found (never step)⟩

/-- A writer task that takes in a job still does. -/
theorem Begun.setTask (begun : Begun s) {index : Nat} {task task' : WriterTask}
    (here : s.control.tasks[index]? = some task) (own : task'.id = task.id)
    (begun' : task'.phase.begins = false) (shared : Shared) (confirmations : List ChunkKey) :
    Begun
      { s with
        control := { s.control with
          shared := shared, tasks := s.control.tasks.set index task' }
        confirmations := confirmations } := by
  intro id mem
  obtain ⟨other, there, same, begins⟩ := begun id mem
  obtain ⟨other', there, own, begins⟩ := begun_set here own (fun _ => begun') other there begins
  exact ⟨other', there, own.trans same, begins⟩

/-- A delivery of the data path is one of the program, or nothing takes it in. -/
theorem lift_deliver (refines : Refines d s t) (going : Going d s.control)
    (kept : Transfer.Kept p.data d.keystream t) (begun : Begun s) {n : Nat}
    (next : Transfer.step p.data t (.deliver n) = some t') :
    Lifted p s t' := by
  cases Transfer.step_cases next with
  | ignored => exact ⟨s, .refl, refines, begun, rfl, rfl⟩
  | @handled _ datagram id job first w mem frame here more =>
      have known : id ∈ s.flow.started := by
        by_contra fresh
        have unstarted := kept.carried.unstarted id (refines.flow ▸ fresh)
        cases here.symm.trans unstarted
      obtain ⟨details, listed, rfl⟩ := refines.listed id known
      rw [size_eq listed] at more ⊢
      obtain ⟨index, task, file, queue, buffered, there, rfl, phase⟩ :=
        refines.receiving listed here more going
      obtain ⟨j, sent⟩ := List.mem_iff_getElem?.mp (refines.network ▸ mem)
      obtain ⟨action, shared', buffered', quiet, undisturbed, stepped⟩ :=
        exists_deliver (p := p) going sent there (congrArg Prod.fst frame) phase more
      rw [show (Receiver.decodeFrame datagram).2 = job from congrArg Prod.snd frame] at stepped
      refine ⟨_, .single undisturbed stepped,
        refines.handle going there phase here job shared' buffered',
        ?_, rfl, ?_⟩
      · refine begun.setTask there ?_ ?_ shared' _
        · rfl
        · rfl
      have ranks := @Control.rank_setTask s.control shared' task (task.goto (.receiving file queue
        buffered' (w.handle task.details.size job))) index there
      rw [quiet, phase] at ranks
      exact Nat.add_right_cancel ranks

/-- **Lifting.**  A step forward of the data path is a step of the program, or none. -/
theorem exists_lift (refines : Refines d s t) (going : Going d s.control)
    (kept : Transfer.Kept p.data d.keystream t) (begun : Begun s) {action : Transfer.Action}
    (forward : action.forward = true) (next : Transfer.step p.data t action = some t') :
    Lifted p s t' := by
  cases action with
  | start | retry | mismatch | writerFails => cases forward
  | deliver n => exact lift_deliver refines going kept begun next
  | confirm key =>
      simp only [Transfer.step] at next
      split at next
      next mem =>
        cases next
        have enabled : (s.control.sender.alive && decide (key ∈ s.confirmations)) = true := by
          rw [going.sending.alive, ← refines.confirmations, decide_eq_true mem]
          rfl
        have started : (Flow.confirm s.flow key).started = s.flow.started := by
          rw [Flow.confirm]
          split <;> rfl
        have data : Undisturbed s (.confirm key) :=
          undisturbed_of_data rfl fun _ => Action.noConfusion
        exact ⟨_, .single data (if_pos enabled), refines.confirmed key,
          fun id mem => begun id (started ▸ mem), rfl, rfl⟩
      next => cases next
  | sender action =>
      simp only [Transfer.step] at next
      split at next
      next own =>
        obtain ⟨flow, moved, rfl⟩ := Option.map_eq_some_iff.mp next
        rw [refines.flow] at moved
        have started : flow.started = s.flow.started :=
          @Transfer.started_flow p.data s.view _ _ (Transfer.starts_of_isOwn own)
            (Flow.step_cases moved)
        have enabled : (s.control.sender.alive && action.isOwn) = true := by
          rw [going.sending.alive, own]
          rfl
        have reads : ∀ reader, Action.sender action ≠ .sender (.readerFails reader) := by
          rintro reader ⟨⟩
          cases forward
        have stepped : p.machine.step s (.sender action) = some { s with
            flow := flow, network := s.network ++ Transfer.datagrams s.flow action } := by
          refine (if_pos enabled).trans ?_
          rw [show Flow.step p.flow s.flow action = some flow from moved]
          rfl
        exact ⟨_, .single (undisturbed_of_data rfl reads) stepped, refines.flowed kept own moved,
          fun id mem => begun id (started ▸ mem), rfl, rfl⟩
      next => cases next
  | open_ id =>
      -- the task has subscribed already, so that the program takes no step
      simp only [Transfer.step] at next
      split at next
      next first cipher here =>
        cases next
        have known : id ∈ s.flow.started := by
          by_contra fresh
          have unstarted := kept.carried.unstarted id (refines.flow ▸ fresh)
          cases here.symm.trans unstarted
        obtain ⟨task, mem, rfl, begins⟩ := begun id known
        exact ⟨s, .refl, refines.open_ mem (going.inv.holds.running task mem).1 begins here, begun,
          rfl, rfl⟩
      next => cases next

/-! ## Where the control part waits for jobs -/

theorem isOpen_of_begins {phase : Phase} (begins : phase.begins = true) : phase.isOpen = true := by
  cases phase <;> first | rfl | cases begins

/-- Where the control part waits for jobs, the tasks of all files that have been started have
subscribed to their queues. -/
theorem begun_of_parked (refines : Refines d s t) (going : Going d s.control)
    (parked : Control.Parked s.control) (rest : ¬ Control.Advances d s.control) : Begun s := by
  intro id started
  obtain ⟨details, listed, rfl⟩ := refines.listed id started
  obtain ⟨pending, -, wanted⟩ := refines.once details.id started
  obtain ⟨file, found, -⟩ := Control.listed_of_prepared d.prepared listed
  have known := AList.lookup_isSome.mp (Option.isSome_of_eq_some found)
  have late : s.control.sender.pc.Late := by
    rw [parked.sender]
    trivial
  have counted := ((going.tracked details.id).attempted late known wanted).resolve_left pending
  rw [Control.tokens, parked.chan, parked.receiver] at counted
  obtain ⟨task, mem, own⟩ : ∃ task ∈ s.control.tasks,
      (decide (task.id = details.id) && true) = true := by
    refine List.countP_pos_iff.mp (Nat.lt_of_lt_of_eq counted ?_)
    simp [Control.ReceiverPc.spawnCount, Control.ReceiverPc.spawns, Control.ReceiverPc.hand]
  have own := of_decide_eq_true (Bool.and_eq_true_iff.mp own).1
  refine ⟨task, mem, own, ?_⟩
  by_contra begins
  have begins : task.phase.begins = true := Bool.eq_true_of_not_eq_false begins
  refine rest (going.advances_task parked.receiver mem (isOpen_of_begins begins) ?_)
  rintro ⟨file, queue, buffered, writer, phase, -⟩
  rw [phase] at begins
  cases begins

/-- Where nothing is left to do on the data path, no writer task lacks anything. -/
theorem not_lacks (refines : Refines d s t) (going : Going d s.control)
    (kept : Transfer.Kept p.data d.keystream t) (landed : Transfer.Landed t) {task : WriterTask}
    (mem : task ∈ s.control.tasks) (started : task.id ∈ s.flow.started) : ¬ Control.Lacks task := by
  rintro ⟨file, queue, buffered, own, phase, running⟩
  rw [← refines.flow] at started
  have listed := (going.inv.holds.running task mem).1
  obtain ⟨first, w, here⟩ := landed.opened task.id started
  have complete := landed.complete kept whole_size started here
  obtain ⟨cipher, writer, made, stage, writes⟩ := refines.attempts task.details listed
  have same := writes task mem rfl
  rw [Writes, phase] at same
  rw [show t.attempts task.details.id = _ from here] at stage
  cases stage
  rw [show p.data.size task.id = task.details.size from size_eq listed] at complete
  exact running (same ▸ complete)

/-- Steps forward of the data path are steps of the program. -/
theorem lifted_reaches (ready : d.Ready) (reached : p.machine.ReachableVia Smooth s)
    (begun : Begun s)
    (runs : (Transfer.machine p.data).ReachableVia (Transfer.Healthy p.data d.keystream) t)
    (refines : Refines d s t)
    (reaches : (Transfer.machine p.data).Reaches (fun _ action => action.forward = true) t t') :
    Lifted p s t' := by
  induction reaches with
  | refl => exact ⟨s, .refl, refines, begun, rfl, rfl⟩
  | tail before leads ih =>
      obtain ⟨action, forward, next⟩ := leads
      obtain ⟨s', further, refines, begun, sender, rank⟩ := ih
      have going := (data_reached ready (smooth_reaches reached further)).1
      have kept := Transfer.kept_reached whole_size
        (runs.reaches (Machine.Reaches.mono (fun _ _ => Transfer.healthy_of_forward) before))
      obtain ⟨end_, last, refines, begun, sender', rank'⟩ :=
        exists_lift refines going kept begun forward next
      exact ⟨end_, further.trans last, refines, begun, sender'.trans sender, rank'.trans rank⟩

/-- **Supply.**  Steps of the program lead to where every writer task has all of its file. -/
theorem exists_supplied (ready : d.Ready) (permits : 0 < p.flow.jobLimit)
    (retries : 0 < p.flow.maxRetries) (reached : p.machine.ReachableVia Smooth s)
    (alive : ∃ task ∈ s.flow.tasks, task.pc ≠ .exited)
    (begun : Begun s) :
    ∃ s', p.machine.Reaches Undisturbed s s' ∧ (∃ task ∈ s'.flow.tasks, task.pc ≠ .exited) ∧
      s'.control.sender = s.control.sender ∧
      Control.rank s'.control = Control.rank s.control ∧
      ∀ task ∈ s'.control.tasks, task.id ∈ s'.flow.started → ¬ Control.Lacks task := by
  obtain ⟨-, t, runs, refines⟩ := data_reached ready reached
  obtain ⟨t', reaches, ⟨runs', alive', -, -⟩, landed⟩ := Transfer.exists_landed whole_size permits
    retries runs (refines.flow ▸ alive)
  obtain ⟨s', further, refines', -, sender, rank⟩ :=
    lifted_reaches ready reached begun runs refines reaches
  have going := (data_reached ready (smooth_reaches reached further)).1
  refine ⟨s', further, refines'.flow ▸ alive', sender, rank, fun task mem started => ?_⟩
  exact not_lacks refines' going (Transfer.kept_reached whole_size runs') landed mem started

/-! ## Completion -/

theorem tasks_start (flow : Flow.State) (reader : Option (UInt32 × UInt64 × StreamCipher)) :
    (p.start flow reader).tasks = flow.tasks := by
  cases reader with
  | none => rfl
  | some reader =>
      rw [Program.start]
      split <;> rfl

/-- A step of the control part that leaves less to do is one of the program. -/
theorem exists_control (advances : Control.Advances d s.control) :
    ∃ s', p.machine.Reaches Undisturbed s s' ∧ s'.flow.tasks = s.flow.tasks ∧
      Control.rank s'.control < Control.rank s.control := by
  obtain ⟨action, control, jobless, ⟨-, smooth⟩, next, less⟩ := advances
  have quiet : takesJob action = false ∧ Control.Buffers s.control action := by
    cases action with
    | sender | senderExit | receiver | receiverExit => exact ⟨rfl, trivial⟩
    | task index action =>
        obtain ⟨task, -, -, here, -, -⟩ := Control.PerFile.step_task next
        cases action with
        | job job passed => exact absurd rfl (jobless index job passed)
        | jobFail => exact (smooth task here).elim
        | proceed | fail => exact ⟨rfl, fun _ _ => trivial⟩
  have undisturbed : Undisturbed s (.control action) := by
    refine ⟨⟨?_, fun _ => Action.noConfusion⟩, ?_⟩
    · rintro _ ⟨⟩
      exact smooth
    · rintro _ ⟨⟩
      exact quiet.2
  have stepped : p.machine.step s (.control action) = some { s with
      control := control
      flow := p.start s.flow (Control.spawned d.cfg s.control.sender control.sender) } := by
    simp only [Program.machine, Program.step, quiet.1]
    rw [show d.machine.step s.control action = some control from next]
    rfl
  exact ⟨_, .single undisturbed stepped, tasks_start _ _, less⟩

/-- Both controllers have returned. -/
def Returned (s : State) : Prop :=
  s.control.sender.pc = .returned ∧ s.control.receiver.pc = .returned

/-- As long as a controller has not returned, steps lead to where less is left to do. -/
theorem exists_advance (ready : d.Ready) (permits : 0 < p.flow.jobLimit)
    (retries : 0 < p.flow.maxRetries) (reached : p.machine.ReachableVia Smooth s)
    (alive : ∃ task ∈ s.flow.tasks, task.pc ≠ .exited) (pending : ¬ Returned s) :
    ∃ s', p.machine.Reaches Undisturbed s s' ∧ (∃ task ∈ s'.flow.tasks, task.pc ≠ .exited) ∧
      Control.rank s'.control < Control.rank s.control := by
  obtain ⟨going, t, runs, refines⟩ := data_reached ready reached
  by_cases advances : Control.Advances d s.control
  · obtain ⟨s', reaches, tasks, less⟩ := exists_control (p := p) advances
    exact ⟨s', reaches, tasks ▸ alive, less⟩
  obtain advances' | parked | returned := going.progress
  · exact absurd advances' advances
  · obtain ⟨s₁, reaches, alive, sender, rank, supplied⟩ := exists_supplied ready permits retries
      reached alive (begun_of_parked refines going parked advances)
    obtain ⟨going, t, -, refines⟩ := data_reached ready (smooth_reaches reached reaches)
    -- no task waits for jobs any more, so that the control part goes on
    obtain advances | ⟨-, -, -, task, mem, active, lacks⟩ | ⟨returned, -⟩ := going.progress
    · obtain ⟨s', further, tasks, less⟩ := exists_control (p := p) advances
      exact ⟨s', reaches.trans further, tasks ▸ alive, rank ▸ less⟩
    · exact absurd lacks (supplied task mem (refines.active task.id active))
    · rw [sender, parked.sender] at returned
      cases returned
  · exact absurd returned pending

/-- `Smooth`, computed, for steps that take in no job. -/
def smoothOnce (s : State) (action : Action) : Bool :=
  match action with
  | .control .sender | .confirm _ => true
  | .control (.receiver space) => space
  | .control (.task index .proceed) => (s.control.tasks[index]?).all fun task =>
      decide (s.control.shared.disk.IsDirectory task.details.partialPath.dropLast)
  | .sender (.readerFails _) => false
  | .sender _ => true
  | _ => false

theorem smooth_of_smoothOnce {s : State} {action : Action} (passes : smoothOnce s action = true) :
    Smooth s action := by
  cases action with
  | control action =>
      refine ⟨?_, fun _ => Action.noConfusion⟩
      rintro _ ⟨⟩
      cases action with
      | sender => trivial
      | receiver space => exact passes
      | senderExit | receiverExit => cases passes
      | task index action =>
          cases action with
          | proceed =>
              intro task here _
              rw [smoothOnce, here] at passes
              exact of_decide_eq_true passes
          | fail | job | jobFail => cases passes
  | deliver => cases passes
  | sender action =>
      refine ⟨?_, ?_⟩
      · rintro _ ⟨⟩
      · rintro reader ⟨⟩
        cases passes
  | confirm key =>
      refine ⟨?_, fun _ => Action.noConfusion⟩
      rintro _ ⟨⟩

theorem resumed_ready : resumed.Ready where
  max := by decide
  ciphers id file found := by
    cases List.mem_singleton.mp (AList.mem_lookup_iff.mp found)
    -- without a cipher, the keystream has no end
    refine ⟨_, rfl, fun n ends => ?_⟩
    cases ends
  directories := by
    have placed : (createDirectories resumed.cfg.options resumed.cfg.manifest resumed.disk).any
        (fun disk => decide (disk.IsDirectory Control.oldDetails.partialPath.dropLast) &&
          decide (disk.entries Control.oldDetails.partialPath ≠ some .dir) &&
          decide (disk.entries Control.oldDetails.path ≠ some .dir)) = true := by
      decide +kernel
    obtain ⟨disk, created, placed⟩ := (Option.any_eq_true _ _).mp placed
    obtain ⟨placed, path⟩ := Bool.and_eq_true_iff.mp placed
    obtain ⟨parent, partialPath⟩ := Bool.and_eq_true_iff.mp placed
    refine ⟨disk, created, fun details mem => ?_⟩
    obtain rfl := List.mem_singleton.mp mem
    exact ⟨of_decide_eq_true parent, of_decide_eq_true partialPath, of_decide_eq_true path⟩

/-- One datagram is on the network, and a sender task runs. -/
def sentOne (s : State) : Bool :=
  decide (s.network.length = 1) && s.flow.tasks.any fun task =>
    match task.pc with
    | .exited => false
    | _ => true

end Whole

end Cccp
