import Cccp.Control.Sessions
import Cccp.Control.Started
import Cccp.Transfer.Integrity

/-!
# The whole transfer

The two controllers and the writer tasks of `Cccp.Control.Model`, the sender's tasks of
`Cccp.Sender.Flow`, and the network between them as one machine.  A reader is spawned where the
sender's controller starts a file, and the jobs the writer tasks take in are datagrams of the
network, which loses, doubles and reorders what the sender's tasks have sent.

All that is in memory or on the network is of the sources (`Transfer.Intact`), since every reader
is started with what the receiver has answered.  So the jobs carry what `Session.Fed` asks of them
(`control_reached`), and what follows from that holds of the whole program
(`whole_delivered`).
-/

namespace Cccp

namespace Whole

open Control (Session Delivery Mirror Interruptible)

/-! ## The machine -/

/-- The sender's side of a transfer. -/
structure Program (session : Session) where
  flow : Flow.Config
  fits : ∀ id, (session.source id).length < 2 ^ 63

structure State where
  control : Control.State Control.Fifo
  flow : Flow.State
  /-- the datagrams sent so far -/
  network : List Bytes
  /-- the confirmations on their way to the sender -/
  confirmations : List ChunkKey

inductive Action where
  | control (action : Control.Action)
  /-- a writer task takes in a datagram; with a `failure`, one of its writes fails after it has
  confirmed some chunks -/
  | deliver (datagram task passed : Nat) (failure : Option (Nat × Bytes))
  | sender (action : Flow.Action)
  | confirm (key : ChunkKey)

/-- The step of a writer task that takes in a job. -/
def takeIn (job : Receiver.Job) (passed : Nat) : Option (Nat × Bytes) → TaskAction
  | none => .job job passed
  | some (_, error) => .jobFail job passed error

/-- The step of the control part in a step of the program. -/
def Action.inControl (s : State) : Action → Option Control.Action
  | .control action => some action
  | .deliver datagram task passed failure => s.network[datagram]?.map fun bytes =>
      .task task (takeIn (Receiver.decodeFrame bytes).2 passed failure)
  | _ => none

/-- The tasks take in datagrams, and nothing else. -/
def takesJob : Control.Action → Bool
  | .task _ (.job ..) | .task _ (.jobFail ..) => true
  | _ => false

/-- The chunks a writer task confirms in a round. -/
def confirmedBy (task : WriterTask) (job : Receiver.Job) (failure : Option (Nat × Bytes)) :
    List ChunkKey :=
  match task.phase with
  | .receiving _ _ _ writer =>
      let confirmed := ((writer.handle task.details.size job).confirmed.drop
        writer.confirmed.length).map fun index => (task.id, index)
      (failure.map fun failure => confirmed.take failure.1).getD confirmed
  | _ => []

variable {session : Session}

namespace Program

variable (p : Program session)

/-- The file of an id at the sender. -/
def file (id : UInt32) : Flow.SourceFile := ⟨session.source id, p.fits id⟩

/-- The reader is spawned, if one is. -/
def start (flow : Flow.State) : Option (UInt32 × UInt64 × StreamCipher) → Flow.State
  | none => flow
  | some (id, index, cipher) =>
      (if id ∈ flow.started then flow.replaceAttempt id else flow).spawn id (p.file id) index cipher

def step (s : State) (action : Action) : Option State :=
  match action with
  | .control action =>
      if takesJob action then none
      else (session.machine.step s.control action).map fun control =>
        { s with
          control := control
          flow := p.start s.flow (Control.spawned session.cfg s.control.sender control.sender) }
  | .deliver datagram index passed failure =>
      match s.network[datagram]?, s.control.tasks[index]? with
      | some bytes, some task =>
          -- the queue of the id hands the job to a writer of the id
          let frame := Receiver.decodeFrame bytes
          if frame.1 = task.id then
            (session.machine.step s.control (.task index (takeIn frame.2 passed failure))).map
              fun control =>
                { s with
                  control := control
                  confirmations := s.confirmations ++ confirmedBy task frame.2 failure }
          else none
      | _, _ => none
  | .sender action =>
      if s.control.sender.alive && action.isOwn then
        (Flow.step p.flow s.flow action).map fun flow =>
          { s with flow := flow, network := s.network ++ Transfer.datagrams s.flow action }
      else none
  | .confirm key =>
      if s.control.sender.alive && decide (key ∈ s.confirmations) then
        some { s with
          flow := Flow.confirm s.flow key
          confirmations := s.confirmations.erase key }
      else none

def initial : State where
  control := Control.initial session.cfg session.disk ⟨[], []⟩
  flow := Flow.initial p.flow
  network := []
  confirmations := []

def machine : Machine State Action where
  init s := s = p.initial
  step := p.step

end Program

/-- The steps of the control part are of this kind. -/
def Via (ok : Control.State Control.Fifo → Control.Action → Prop) (s : State) (action : Action) :
    Prop :=
  ∀ step, action.inControl s = some step → ok s.control step

/-! ## What the tasks take in -/

namespace Program

variable (p : Program session)

/-- The program, as far as its data path goes. -/
def data : Transfer.Config where
  flow := p.flow
  source := p.file
  size id := UInt64.ofNat (session.source id).length

end Program

/-- What is in memory and on the network. -/
def State.view (s : State) : Transfer.State where
  flow := s.flow
  network := s.network
  attempts _ := .unstarted
  confirmations := s.confirmations
  failures := []

variable {d : Delivery} {p : Program d.toSession} {s s' : State} {action : Action}
  {ok : Control.State Control.Fifo → Control.Action → Prop}

/-- All that is in memory and on the network is of the sources. -/
def Sound (p : Program d.toSession) (s : State) : Prop :=
  Transfer.Intact p.data d.keystream s.view

theorem sound_of (readers : ∀ reader ∈ s.flow.readers,
      Transfer.ReaderGenuine p.data d.keystream reader)
    (jobs : Flow.Each (fun job => Transfer.Genuine p.data d.keystream job.data) s.flow)
    (network : ∀ datagram ∈ s.network, Transfer.Genuine p.data d.keystream datagram) :
    Sound p s := by
  refine ⟨readers, jobs, network, fun _ _ _ starting => ?_, fun _ _ _ begins => ?_⟩
  · cases starting
  · cases begins

/-- A reader is started at a chunk of its file, with the keystream of its file. -/
theorem Sound.start (sound : Sound p s) (control : Control.State Control.Fifo)
    (reader : Option (UInt32 × UInt64 × StreamCipher))
    (spawns : ∀ id index cipher, reader = some (id, index, cipher) →
      cipher.keystream = d.keystream id ∧ Transfer.Aligned p.data id index) :
    Sound p { s with control := control, flow := p.start s.flow reader } := by
  obtain ⟨readers, jobs, network, -, -⟩ := sound
  cases reader with
  | none => exact sound_of readers jobs network
  | some reader =>
      obtain ⟨id, index, cipher⟩ := reader
      obtain ⟨own, aligned⟩ := spawns id index cipher rfl
      have kept : ∀ {flow : Flow.State}, flow.readers = s.flow.readers →
          ∀ reader ∈ (flow.spawn id (p.file id) index cipher).readers,
            Transfer.ReaderGenuine p.data d.keystream reader := by
        intro flow same reader mem
        rcases List.mem_append.mp mem with mem | new
        · exact readers reader (same ▸ mem)
        · obtain rfl := List.mem_singleton.mp new
          exact ⟨rfl, own, aligned⟩
      refine sound_of ?_ ?_ network
      · rw [Program.start]
        dsimp only
        split
        next => exact kept rfl
        next => exact kept rfl
      · rw [Program.start]
        dsimp only
        split
        next => exact ⟨jobs.queued, jobs.held, jobs.cached⟩
        next => exact ⟨jobs.queued, jobs.held, jobs.cached⟩

/-- The receiver has asked for the file from a chunk of it on. -/
theorem aligned_spawned (reached : d.machine.ReachableVia d.Fed s.control)
    {control : Control.State Control.Fifo} {step : Control.Action}
    (next : d.machine.step s.control step = some control) (id : UInt32) (index : UInt64)
    (cipher : StreamCipher) (spawns : Control.spawned d.cfg s.control.sender control.sender =
      some (id, index, cipher)) :
    cipher.keystream = d.keystream id ∧ Transfer.Aligned p.data id index := by
  have run := reached.mono fun s action => @Delivery.allows_of_fed d s action
  obtain ⟨details, mem, rfl, rfl, made⟩ := Control.spawned_reader run next spawns
  obtain ⟨begins, within, -⟩ := Delivery.leftover_eq (d := d) mem
  exact ⟨d.keyed details mem cipher made, begins, within⟩

/-- A datagram on the network carries a chunk of its file. -/
theorem Sound.feeds (sound : Sound p s) {datagram : Bytes} (mem : datagram ∈ s.network) :
    d.Feeds (Receiver.decodeFrame datagram).1 (Receiver.decodeFrame datagram).2 :=
  sound.network datagram mem

theorem Sound.flow (sound : Sound p s) {flow : Flow.State} {step : Flow.Action}
    (going : step.starts = false) (next : Flow.step p.flow s.flow step = some flow) :
    (∀ reader ∈ flow.readers, Transfer.ReaderGenuine p.data d.keystream reader) ∧
      Flow.Each (fun job => Transfer.Genuine p.data d.keystream job.data) flow :=
  Transfer.Intact.flow sound going next

/-- Other operations than taking in a job need no datagram. -/
theorem fed_of_takesJob {control : Control.State Control.Fifo} {step : Control.Action}
    (other : takesJob step = false) : d.Fed control step := by
  cases step with
  | task index action =>
      intro task _
      cases action with
      | job | jobFail => cases other
      | proceed | fail => trivial
  | sender | senderExit | receiver | receiverExit => trivial

/-- A task takes in what its id has on the network. -/
theorem Sound.fed (sound : Sound p s) {datagram : Bytes} (mem : datagram ∈ s.network)
    {index passed : Nat} {failure : Option (Nat × Bytes)} {task : WriterTask}
    (here : s.control.tasks[index]? = some task)
    (own : (Receiver.decodeFrame datagram).1 = task.id) :
    d.Fed s.control (.task index (takeIn (Receiver.decodeFrame datagram).2 passed failure)) := by
  intro other found
  cases here.symm.trans found
  have feeds := own ▸ sound.feeds mem
  cases failure with
  | none => exact feeds
  | some failure => exact feeds

/-- **The two halves fit.**  In every run of the program all that is in memory and on the network
is of the sources, and the control part takes the steps of a run in which the tasks take in
chunks of their files. -/
theorem control_reached (reached : p.machine.ReachableVia (Via ok) s) :
    Sound p s ∧ d.machine.ReachableVia (fun s action => d.Fed s action ∧ ok s action) s.control := by
  refine @Machine.ReachableVia.invariant _ _ _ _ (fun s => Sound p s ∧
    d.machine.ReachableVia (fun s action => d.Fed s action ∧ ok s action) s.control) ?_ ?_ _ reached
  · rintro s rfl
    refine ⟨sound_of (fun _ none_ => ?_) Flow.each_init (fun _ none_ => ?_), .init rfl⟩
    · cases none_
    · cases none_
  · rintro s action s' - ⟨sound, control⟩ allowed next
    have fed := control.mono fun s action ok => ok.1
    cases action with
    | control action =>
        simp only [Program.machine, Program.step] at next
        split at next
        next => cases next
        next other =>
          obtain ⟨after, moved, rfl⟩ := Option.map_eq_some_iff.mp next
          exact ⟨sound.start after _ (aligned_spawned fed moved),
            control.step ⟨fed_of_takesJob (by simpa using other), allowed action rfl⟩ moved⟩
    | deliver datagram index passed failure =>
        simp only [Program.machine, Program.step] at next
        split at next
        next bytes task here there =>
          split at next
          next own =>
            obtain ⟨after, moved, rfl⟩ := Option.map_eq_some_iff.mp next
            have step : Action.inControl s (.deliver datagram index passed failure) =
                some (.task index (takeIn (Receiver.decodeFrame bytes).2 passed failure)) := by
              rw [Action.inControl, here]
              rfl
            exact ⟨sound_of sound.readers sound.jobs sound.network, control.step
              ⟨sound.fed (List.mem_of_getElem? here) there own, allowed _ step⟩ moved⟩
          next => cases next
        next => cases next
    | sender action =>
        simp only [Program.machine, Program.step] at next
        split at next
        next enabled =>
          obtain ⟨flow, moved, rfl⟩ := Option.map_eq_some_iff.mp next
          have own := (Bool.and_eq_true_iff.mp enabled).2
          obtain ⟨readers, jobs⟩ := sound.flow (Transfer.starts_of_isOwn own) moved
          refine ⟨sound_of readers jobs fun datagram mem => ?_, control⟩
          rcases List.mem_append.mp mem with mem | new
          · exact sound.network datagram mem
          · exact Transfer.each_datagrams sound.jobs action datagram new
        next => cases next
    | confirm key =>
        simp only [Program.machine, Program.step] at next
        split at next
        next =>
          cases next
          have confirmed : Flow.step p.flow s.flow (.confirm key) =
            some (Flow.confirm s.flow key) := rfl
          obtain ⟨readers, jobs⟩ := sound.flow rfl confirmed
          exact ⟨sound_of readers jobs sound.network, control⟩
        next => cases next

/-! ## Sessions -/

variable {m : Mirror} {first : FileSystem Path}

/-- What interrupted runs of the program make of a disk. -/
inductive History (m : Mirror) (first : FileSystem Path) : FileSystem Path → Prop
  | first : History m first first
  | session {session : Session} (p : Program session) {s : State}
      (before : History m first session.disk) (sends : m.Sends session)
      (reached : p.machine.ReachableVia (Via Control.Buffers) s)
      (interruptible : Interruptible s.control) : History m first s.control.shared.disk

theorem History.kept (start : m.Kept first first) {disk : FileSystem Path}
    (history : History m first disk) : m.Kept first disk := by
  induction history with
  | first => exact start
  | @session session p s before sends reached interruptible ih =>
      exact sends.kept ih (control_reached (d := sends.delivery ih) reached).2 interruptible

/-- One sender task and one permit. -/
def small {session : Session} (source : session.source = fun _ => [7, 8]) : Program session where
  flow := ⟨1, 1, 1⟩
  fits id := by
    rw [source]
    have short : ([7, 8] : Bytes).length < 2 ^ 63 := by decide
    exact short

/-- The file is started, and its chunk is sent. -/
def sentChunk : List Action :=
  Control.startedOnce.map .control ++
    [.sender (.open_ 0), .sender (.acquireRead 0), .sender (.readChunk 0), .sender (.forget 0),
      .sender .addPermit, .sender (.acquireSend 0), .sender (.receive 0), .sender (.send 0)] ++
    List.replicate 3 (.control (.task 0 .proceed))

/-- `Via Buffers`, computed. -/
def passesOnce (s : State) (action : Action) : Bool :=
  (action.inControl s).all (Control.passesOnce s.control)

theorem buffers_of_passesOnce {s : State} {action : Action} (passes : passesOnce s action = true) :
    Via Control.Buffers s action := by
  intro step found
  rw [passesOnce, found] at passes
  exact Control.buffers_of_passesOnce passes

def firstRun : Program Control.overwritten.toSession := small rfl

/-- The receiver is killed with the whole file in its buffer. -/
def killed : State :=
  (firstRun.machine.runVia passesOnce firstRun.initial
    (sentChunk ++ [.deliver 0 0 0 none])).getD firstRun.initial

theorem killed_reached : firstRun.machine.ReachableVia (Via Control.Buffers) killed := by
  have runs : (firstRun.machine.runVia passesOnce firstRun.initial
      (sentChunk ++ [.deliver 0 0 0 none])).isSome = true := by
    decide +kernel
  obtain ⟨s, ran⟩ := Option.isSome_iff_exists.mp runs
  have same : killed = s := by
    rw [killed, ran, Option.getD_some]
  rw [same]
  exact ((Machine.ReachableVia.init rfl).runVia ran).mono fun s action => buffers_of_passesOnce

/-- The transfer after the kill. -/
def resumed : Session := Control.onceMore killed.control.shared.disk (by decide +kernel)

theorem resumed_history : History Control.oneFile Control.oldDisk resumed.disk := by
  refine .session firstRun .first (Control.oneFile_sends rfl rfl (by decide)) killed_reached ?_
  have early : killed.control.tasks.all (fun task => !task.phase.late) = true := by
    decide +kernel
  intro task there late
  have early := List.all_eq_true.mp early task there
  rw [late] at early
  cases early

def secondRun : Program resumed := small rfl

end Whole

end Cccp
