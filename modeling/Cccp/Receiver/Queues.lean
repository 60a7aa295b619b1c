import Cccp.Lib.Machine
import Cccp.Receiver.Task

/-!
# The queues of the writers

`SplitQueue` as its users share it: the controller pushes a queue for every `Start`
message, the writers subscribe to it and pop it, and the UDP receivers send jobs to it.
`push_queue` and `pop_queue` change two maps under two locks, which makes two steps of
each.

A channel is closed when its last receiver is dropped.  The map of receivers holds one,
so that a channel whose entry stays behind never closes.  `queues_live` says in which
runs no entry stays behind.
-/

namespace Cccp

namespace Queues

/-- A writer task with the receiver it holds; `popping` is between the two halves of
`pop_queue`. -/
structure Handler where
  task : WriterTask
  receiver : Option Nat
  popping : Bool

/-- The next operation of the controller: `inserting` is between the two halves of
`push_queue`. -/
inductive ControllerPc where
  | waiting
  | inserting (details : FileDetails) (channel : Nat)

/-- `shared.queues` is the map of receivers, `channels` has the jobs in the channels, and
a UDP receiver that sends has its job, with the id and the channel it sends it to. -/
structure State where
  shared : Shared
  senders : UInt32 → Option Nat
  channels : Nat → List Receiver.Job
  controller : ControllerPc
  handlers : List Handler
  sockets : List (Option (UInt32 × Nat × Receiver.Job))

inductive Action where
  | start (details : FileDetails)
  | insert
  | task (index : Nat) (action : TaskAction)
  | pop (index : Nat)
  | receive (socket : Nat) (id : UInt32) (job : Receiver.Job)
  | send (socket : Nat)

/-- `kanal::bounded_async(1_000)` -/
def capacity : Nat := 1000

/-! ## Steps -/

def update {V : Type} (map : UInt32 → V) (id : UInt32) (value : V) : UInt32 → V :=
  fun other => if other = id then value else map other

/-- A task receives from the channel it is subscribed to. -/
def take (channels : Nat → List Receiver.Job) (phase : Phase) :
    TaskAction → Option (Nat → List Receiver.Job)
  | .job job _ | .jobFail job _ _ =>
      match phase with
      | .receiving _ channel _ _ =>
          match channels channel with
          | [] => none
          | first :: rest =>
              if first = job then
                some fun other => if other = channel then rest else channels other
              else none
      | _ => none
  | .proceed | .fail .. => some channels

/-- `writer` has returned. -/
def Returned : Phase → Bool
  | .failing .. | .finished _ | .panicked => true
  | _ => false

/-- The receiver a task holds after a step to `phase`: what it subscribes to, until `writer`
returns. -/
def holds (before : Option Nat) (phase : Phase) : Option Nat :=
  match phase with
  | .receiving _ channel _ _ => some channel
  | phase => if Returned phase then none else before

def isPopping : Phase → Bool
  | .popping => true
  | _ => false

def taskStep (crates : Crates) (s : State) (index : Nat) (action : TaskAction) : Option State :=
  s.handlers[index]?.bind fun handler =>
    if handler.popping then none
    else
      (take s.channels handler.task.phase action).bind fun channels =>
        (handler.task.step crates s.shared action).map fun next =>
          { s with
            shared := next.1
            channels := channels
            handlers := s.handlers.set index
              ⟨next.2, holds handler.receiver next.2.phase, isPopping handler.task.phase⟩ }

/-- A channel made for the id has a receiver left. -/
def Open (s : State) (id : UInt32) (channel : Nat) : Prop :=
  s.shared.queues id = some channel ∨ ∃ handler ∈ s.handlers, handler.receiver = some channel

instance (s : State) (id : UInt32) (channel : Nat) : Decidable (Open s id channel) :=
  inferInstanceAs (Decidable (_ ∨ _))

/-- A UDP receiver whose channel is full waits, unless the channel is closed: then its
`send` returns an error. -/
def send (s : State) (socket : Nat) (id : UInt32) (channel : Nat) (job : Receiver.Job) :
    Option State :=
  if Open s id channel then
    if (s.channels channel).length < capacity then
      some { s with
        channels := fun other =>
          if other = channel then s.channels other ++ [job] else s.channels other
        sockets := s.sockets.set socket none }
    else none
  else some { s with sockets := s.sockets.set socket none }

def step (crates : Crates) (s : State) : Action → Option State
  | .start details =>
      match s.controller with
      | .waiting => some { s with
          shared := s.shared.pushQueue details.id
          controller := .inserting details s.shared.nextQueue }
      | .inserting .. => none
  | .insert =>
      match s.controller with
      | .waiting => none
      | .inserting details channel => some { s with
          senders := update s.senders details.id (some channel)
          controller := .waiting
          handlers := s.handlers ++ [⟨⟨details, .opening⟩, none, false⟩] }
  | .task index action => taskStep crates s index action
  | .pop index =>
      s.handlers[index]?.bind fun handler =>
        if handler.popping then some { s with
          senders := update s.senders handler.task.id none
          handlers := s.handlers.set index { handler with popping := false } }
        else none
  | .receive socket id job =>
      match s.sockets[socket]? with
      | some none => some (match s.senders id with
          | some channel => { s with sockets := s.sockets.set socket (some (id, channel, job)) }
          | none => s) -- `MissingQueue`
      | _ => none
  | .send socket =>
      match s.sockets[socket]? with
      | some (some (id, channel, job)) => send s socket id channel job
      | _ => none

/-- The receiver's tasks over any disk, with `sockets` UDP receivers. -/
def initial (disk : FileSystem Path) (sockets : Nat) : State where
  shared :=
    { disk := disk
      queues := fun _ => none
      nextQueue := 0
      messages := []
      closed := false }
  senders _ := none
  channels _ := []
  controller := .waiting
  handlers := []
  sockets := List.replicate sockets none

def machine (crates : Crates) : Machine State Action where
  init s := ∃ disk sockets, s = initial disk sockets
  step := step crates

/-! ## Live writers -/

/-- `writer` has not popped its queue yet. -/
def Early : Phase → Prop
  | .opening | .seeking _ | .subscribing .. | .receiving .. | .popping => True
  | _ => False

/-- No `push_queue` and no `pop_queue` is in progress. -/
def Quiescent (s : State) : Prop :=
  s.controller = .waiting ∧ ∀ handler ∈ s.handlers, handler.popping = false

/-- The controller is pushing the queue of the id. -/
def Inserting (s : State) (id : UInt32) : Prop :=
  ∃ details channel, s.controller = .inserting details channel ∧ details.id = id

/-- No `push_queue` meets a `pop_queue` of the same id, and no writer returns before its
`pop_queue` while its id has a queue. -/
def Separate (crates : Crates) (s : State) : Action → Prop
  | .start details => ∀ handler ∈ s.handlers, handler.popping = true →
      handler.task.id ≠ details.id
  | .task index action => ∀ handler, s.handlers[index]? = some handler →
      (handler.task.phase = .popping → ¬ Inserting s handler.task.id) ∧
        ∀ next, Early handler.task.phase →
          handler.task.step crates s.shared action = some next →
            Returned next.2.phase = true → s.shared.queues handler.task.id = none
  | _ => True

structure Inv (s : State) : Prop where
  same : ∀ id, s.senders id = s.shared.queues id ∨ Inserting s id ∨
    ∃ handler ∈ s.handlers, handler.popping = true ∧ handler.task.id = id
  gone : ∀ handler ∈ s.handlers, handler.popping = true → s.shared.queues handler.task.id = none
  inserting : ∀ details channel, s.controller = .inserting details channel →
    s.shared.queues details.id = some channel
  alive : ∀ id, s.shared.queues id ≠ none → Inserting s id ∨
    ∃ handler ∈ s.handlers, handler.task.id = id ∧ Early handler.task.phase
  held : ∀ handler ∈ s.handlers, handler.receiver ≠ none → Returned handler.task.phase = false

variable {crates : Crates} {s s' : State} {action : Action}

theorem inv_init {disk : FileSystem Path} {sockets : Nat} : Inv (initial disk sockets) where
  same := fun _ => .inl rfl
  gone := by
    rintro _ ⟨⟩
  inserting := by
    rintro _ _ ⟨⟩
  alive := fun _ queue => absurd rfl queue
  held := by
    rintro _ ⟨⟩

/-! ## The steps -/

theorem Inv.start (inv : Inv s) {details : FileDetails} (waiting : s.controller = .waiting)
    (separate : Separate crates s (.start details)) :
    Inv { s with
      shared := s.shared.pushQueue details.id
      controller := .inserting details s.shared.nextQueue } := by
  have idle : ∀ id, ¬ Inserting s id := by
    rintro id ⟨_, _, inserting, -⟩
    cases waiting.symm.trans inserting
  have self : (s.shared.pushQueue details.id).queues details.id = some s.shared.nextQueue :=
    if_pos rfl
  have other : ∀ id, id ≠ details.id →
      (s.shared.pushQueue details.id).queues id = s.shared.queues id := fun _ ne => if_neg ne
  refine ⟨fun id => ?_, fun handler mem popping => ?_, ?_, fun id queue => ?_, inv.held⟩
  · by_cases same : id = details.id
    · exact .inr (.inl ⟨details, _, rfl, same.symm⟩)
    · rcases inv.same id with senders | inserting | popping
      · exact .inl (senders.trans (other id same).symm)
      · exact absurd inserting (idle id)
      · exact .inr (.inr popping)
  · exact (other _ (separate handler mem popping)).trans (inv.gone handler mem popping)
  · rintro _ _ ⟨⟩
    exact self
  · by_cases same : id = details.id
    · exact .inl ⟨details, _, rfl, same.symm⟩
    · have queue : s.shared.queues id ≠ none := other id same ▸ queue
      exact .inr ((inv.alive id queue).resolve_left (idle id))

theorem Inv.insert (inv : Inv s) {details : FileDetails} {channel : Nat}
    (inserting : s.controller = .inserting details channel) :
    Inv { s with
      senders := update s.senders details.id (some channel)
      controller := .waiting
      handlers := s.handlers ++ [⟨⟨details, .opening⟩, none, false⟩] } := by
  have busy : ∀ id, Inserting s id → id = details.id := by
    rintro id ⟨_, _, inserting', rfl⟩
    cases inserting.symm.trans inserting'
    rfl
  refine ⟨fun id => ?_, fun handler mem popping => ?_, ?_, fun id queue => ?_,
    fun handler mem held => ?_⟩
  · by_cases same : id = details.id
    · subst same
      exact .inl ((if_pos rfl).trans (inv.inserting details channel inserting).symm)
    · rcases inv.same id with senders | busy' | ⟨handler, mem, popping⟩
      · exact .inl ((if_neg same).trans senders)
      · exact absurd (busy id busy') same
      · exact .inr (.inr ⟨handler, List.mem_append_left _ mem, popping⟩)
  · rcases List.mem_append.mp mem with mem | new
    · exact inv.gone handler mem popping
    · obtain rfl := List.mem_singleton.mp new
      cases popping
  · rintro _ _ ⟨⟩
  · rcases inv.alive id queue with busy' | ⟨handler, mem, own, early⟩
    · exact .inr ⟨_, List.mem_append_right _ (List.mem_singleton_self _), (busy id busy').symm,
        trivial⟩
    · exact .inr ⟨handler, List.mem_append_left _ mem, own, early⟩
  · rcases List.mem_append.mp mem with mem | new
    · exact inv.held handler mem held
    · obtain rfl := List.mem_singleton.mp new
      exact absurd rfl held

/-- The handlers beside the one that takes a step. -/
theorem mem_set_of_ne {handlers : List Handler} {index : Nat} {handler other new : Handler}
    (here : handlers[index]? = some handler) (mem : other ∈ handlers) (differs : other ≠ handler) :
    other ∈ handlers.set index new := by
  obtain ⟨i, at_⟩ := List.mem_iff_getElem?.mp mem
  have apart : index ≠ i := by
    rintro rfl
    exact differs (Option.some.inj (at_.symm.trans here))
  exact List.mem_of_getElem? ((List.getElem?_set_ne apart).trans at_)

/-- A writer that has not popped its queue yet goes on towards it or returns. -/
theorem early_step {shared shared' : Shared} {task task' : WriterTask} {action : TaskAction}
    (move : task.Move crates shared action shared' task') (early : Early task.phase)
    (notPopping : task.phase ≠ .popping) :
    Early task'.phase ∨ Returned task'.phase = true := by
  cases move with
  | opened | seeked | subscribed | received | flushed => exact .inl trivial
  | popped phase => exact absurd phase notPopping
  | keyPanicked | seekPanicked | keystreamPanicked | sendPanicked | writeFailed | failed =>
      exact .inr rfl
  | verified phase _ _ | mismatched phase _ _ | notified phase _ | removed phase _
  | unremoved phase | moved phase _ | ended phase _ | reported phase _ =>
      rw [phase] at early
      exact early.elim

/-- A task whose `writer` has returned holds no receiver. -/
theorem holds_returned {before : Option Nat} {phase : Phase} (held : holds before phase ≠ none) :
    Returned phase = false := by
  by_contra returned
  have returned : Returned phase = true := by simpa using returned
  cases phase <;> first | exact held rfl | cases returned

theorem Inv.task (inv : Inv s) {index : Nat}
    {taskAction : TaskAction}
    (separate : Separate crates s (.task index taskAction))
    (next : taskStep crates s index taskAction = some s') : Inv s' := by
  obtain ⟨handler, here, next⟩ := Option.bind_eq_some_iff.mp next
  split at next
  next => cases next
  next notPopping =>
    obtain ⟨channels, -, next⟩ := Option.bind_eq_some_iff.mp next
    obtain ⟨⟨shared', task'⟩, stepped, rfl⟩ := Option.map_eq_some_iff.mp next
    have move := WriterTask.step_cases stepped
    obtain ⟨apart, returns⟩ := separate handler here
    have mem := List.mem_of_getElem? here
    have own : task'.id = handler.task.id := by
      rw [WriterTask.id, WriterTask.id, move.details_eq]
    have placed := List.mem_set (List.getElem?_eq_some_iff.mp here).1
      (⟨task', holds handler.receiver task'.phase, isPopping handler.task.phase⟩ : Handler)
    -- the handlers that are popping are not the one that takes the step
    have others : ∀ other ∈ s.handlers, other.popping = true → other ∈ s.handlers.set index
        ⟨task', holds handler.receiver task'.phase, isPopping handler.task.phase⟩ := by
      intro other mem popping
      apply mem_set_of_ne here mem
      rintro rfl
      exact notPopping popping
    have held : ∀ other ∈ s.handlers.set index
        ⟨task', holds handler.receiver task'.phase, isPopping handler.task.phase⟩,
          other.receiver ≠ none → Returned other.task.phase = false := by
      intro other mem held
      rcases List.mem_or_eq_of_mem_set mem with mem | rfl
      · exact inv.held other mem held
      · exact holds_returned held
    rcases move.queues_cases with ⟨popping, queues⟩ | ⟨notPop, queues⟩
    · have self : shared'.queues handler.task.id = none := by
        rw [queues]
        exact if_pos rfl
      have other : ∀ id, id ≠ handler.task.id → shared'.queues id = s.shared.queues id := by
        intro id differs
        rw [queues]
        exact if_neg differs
      have flag : isPopping handler.task.phase = true := by
        rw [popping]
        rfl
      refine ⟨fun id => ?_, fun h mem popped => ?_, fun details channel inserting => ?_,
        fun id queue => ?_, held⟩
      · by_cases same : id = handler.task.id
        · exact .inr (.inr ⟨_, placed, flag, own.trans same.symm⟩)
        · rcases inv.same id with senders | busy | ⟨h, mem, popped⟩
          · exact .inl (senders.trans (other id same).symm)
          · exact .inr (.inl busy)
          · exact .inr (.inr ⟨h, others h mem popped.1, popped⟩)
      · rcases List.mem_or_eq_of_mem_set mem with mem | rfl
        · by_cases same : h.task.id = handler.task.id
          · exact same ▸ self
          · exact (other _ same).trans (inv.gone h mem popped)
        · exact (congrArg shared'.queues own).trans self
      · have differs : details.id ≠ handler.task.id :=
          fun same => apart popping ⟨details, channel, inserting, same⟩
        exact (other _ differs).trans (inv.inserting details channel inserting)
      · have differs : id ≠ handler.task.id := by
          rintro rfl
          exact queue self
        have before : s.shared.queues id ≠ none := other id differs ▸ queue
        apply (inv.alive id before).imp_right
        rintro ⟨h, mem, named, early⟩
        refine ⟨h, mem_set_of_ne here mem ?_, named, early⟩
        rintro rfl
        exact differs named.symm
    · have flag : isPopping handler.task.phase = false := by
        cases phase : handler.task.phase <;> first | rfl | exact absurd phase notPop
      refine ⟨fun id => ?_, fun h mem popped => ?_, fun details channel inserting => ?_,
        fun id queue => ?_, held⟩
      · show s.senders id = shared'.queues id ∨ _
        rw [queues]
        refine (inv.same id).imp_right fun busy => busy.imp_right ?_
        rintro ⟨h, mem, popped⟩
        exact ⟨h, others h mem popped.1, popped⟩
      · show shared'.queues _ = none
        rw [queues]
        rcases List.mem_or_eq_of_mem_set mem with mem | rfl
        · exact inv.gone h mem popped
        · rw [flag] at popped
          cases popped
      · show shared'.queues _ = _
        rw [queues]
        exact inv.inserting details channel inserting
      · have before : s.shared.queues id ≠ none := queues ▸ queue
        refine (inv.alive id before).imp_right ?_
        rintro ⟨h, mem, named, early⟩
        by_cases same : h = handler
        · subst same
          refine ⟨_, placed, own.trans named, ?_⟩
          refine (early_step move early notPop).resolve_right fun returned => before ?_
          exact named ▸ returns _ early stepped returned
        · exact ⟨h, mem_set_of_ne here mem same, named, early⟩

theorem Inv.pop (inv : Inv s) {index : Nat} {handler : Handler}
    (here : s.handlers[index]? = some handler) (popping : handler.popping = true) :
    Inv { s with
      senders := update s.senders handler.task.id none
      handlers := s.handlers.set index { handler with popping := false } } := by
  have gone := inv.gone handler (List.mem_of_getElem? here) popping
  refine ⟨fun id => ?_, fun h mem popped => ?_, inv.inserting, fun id queue => ?_,
    fun h mem held => ?_⟩
  · by_cases same : id = handler.task.id
    · subst same
      exact .inl ((if_pos rfl).trans gone.symm)
    · rcases inv.same id with senders | busy | ⟨h, mem, popped, named⟩
      · exact .inl ((if_neg same).trans senders)
      · exact .inr (.inl busy)
      · refine .inr (.inr ⟨h, mem_set_of_ne here mem ?_, popped, named⟩)
        rintro rfl
        exact same named.symm
  · rcases List.mem_or_eq_of_mem_set mem with mem | rfl
    · exact inv.gone h mem popped
    · cases popped
  · apply (inv.alive id queue).imp_right
    rintro ⟨h, mem, named, early⟩
    by_cases same : h = handler
    · subst same
      exact ⟨_, List.mem_set (List.getElem?_eq_some_iff.mp here).1 _, named, early⟩
    · exact ⟨h, mem_set_of_ne here mem same, named, early⟩
  · rcases List.mem_or_eq_of_mem_set mem with mem | rfl
    · exact inv.held h mem held
    · exact inv.held handler (List.mem_of_getElem? here) held

/-- Jobs and UDP receivers are no matter of the invariant. -/
theorem Inv.jobs (inv : Inv s) (channels : Nat → List Receiver.Job)
    (sockets : List (Option (UInt32 × Nat × Receiver.Job))) :
    Inv { s with channels := channels, sockets := sockets } :=
  ⟨inv.same, inv.gone, inv.inserting, inv.alive, inv.held⟩

theorem inv_step (inv : Inv s) (separate : Separate crates s action)
    (next : step crates s action = some s') : Inv s' := by
  cases action with
  | start details =>
      simp only [step] at next
      split at next
      next waiting =>
        cases next
        exact inv.start waiting separate
      next => cases next
  | insert =>
      simp only [step] at next
      split at next
      next => cases next
      next details channel inserting =>
        cases next
        exact inv.insert inserting
  | task index action => exact inv.task separate next
  | pop index =>
      obtain ⟨handler, here, next⟩ := Option.bind_eq_some_iff.mp next
      split at next
      next popping =>
        cases next
        exact inv.pop here popping
      next => cases next
  | receive socket id job =>
      simp only [step] at next
      split at next
      next =>
        cases next
        split
        next => exact inv.jobs _ _
        next => exact inv
      next => cases next
  | send socket =>
      simp only [step] at next
      split at next
      next id channel job _ =>
        unfold send at next
        split at next
        next =>
          split at next
          next =>
            cases next
            exact inv.jobs _ _
          next => cases next
        next =>
          cases next
          exact inv.jobs _ _
      next => cases next

theorem inv_reached (reached : (machine crates).ReachableVia (Separate crates) s) : Inv s := by
  refine reached.invariant ?_ ?_
  · rintro _ ⟨disk, sockets, rfl⟩
    exact inv_init
  · intro _ _ _ _ inv separate next
    exact inv_step inv separate next

/-- A writer of the id that has not popped its queue yet. -/
def Live (s : State) (id : UInt32) : Prop :=
  ∃ handler ∈ s.handlers, handler.task.id = id ∧ Early handler.task.phase

/-- A file whose writer cannot open its partial file. -/
def unopened : FileDetails where
  id := 0
  path := [.normal [97]]
  partialPath := [.normal [98]]
  size := 1
  startIndex := 0
  signature := none
  crypto := ⟨0, [], []⟩

def someCrates : Crates := ⟨⟨fun _ _ _ _ => 0, fun _ => none⟩, fun bytes => bytes⟩

def emptyDisk : FileSystem Path := ⟨fun _ => none, fun _ => [], 0⟩

/-- The receiver with its only file started, and one UDP receiver. -/
def startedOnce : State :=
  { initial emptyDisk 1 with
    shared := (initial emptyDisk 1).shared.pushQueue 0
    senders := update (fun _ => none) 0 (some 0)
    handlers := [⟨⟨unopened, .opening⟩, none, false⟩] }

theorem reached_startedOnce : (machine someCrates).ReachableVia (Separate someCrates) startedOnce := by
  refine .step (a := .insert) (.step (a := .start unopened) (.init ⟨emptyDisk, 1, rfl⟩) ?_ rfl)
    trivial rfl
  rintro _ ⟨⟩

/-- The writer is gone and its channel holds `count` jobs. -/
structure Abandoned (s : State) (count : Nat) : Prop where
  reached : (machine someCrates).Reachable s
  quiet : Quiescent s
  sender : s.senders 0 = some 0
  queue : s.shared.queues 0 = some 0
  returned : ∀ handler ∈ s.handlers, Returned handler.task.phase = true
  jobs : (s.channels 0).length = count
  free : s.sockets = [none]

theorem abandoned_zero : ∃ s, Abandoned s 0 := by
  refine ⟨_, .step (a := .task 0 .proceed) (.step (a := .task 0 (.fail 0 []))
    reached_startedOnce.reachable trivial rfl) trivial rfl, ⟨rfl, fun handler mem => ?_⟩, rfl, rfl,
    fun handler mem => ?_, rfl, rfl⟩
  · obtain rfl := List.mem_singleton.mp mem
    rfl
  · obtain rfl := List.mem_singleton.mp mem
    rfl

/-- The UDP receiver takes a job for the file. -/
theorem Abandoned.receive {s : State} {count : Nat} (abandoned : Abandoned s count)
    (job : Receiver.Job) :
    (machine someCrates).Reachable { s with sockets := [some (0, 0, job)] } := by
  refine .step (a := .receive 0 0 job) abandoned.reached trivial ?_
  simp only [machine, step, abandoned.free, abandoned.sender]
  rfl

theorem abandoned_upto {count : Nat} (small : count ≤ capacity) : ∃ s, Abandoned s count := by
  induction count with
  | zero => exact abandoned_zero
  | succ count ih =>
      obtain ⟨s, abandoned⟩ := ih (Nat.le_of_succ_le small)
      have received := abandoned.receive ⟨[], 0⟩
      have room : (s.channels 0).length < capacity := abandoned.jobs ▸ small
      have open_ : Open { s with sockets := [some (0, 0, ⟨[], 0⟩)] } 0 0 := .inl abandoned.queue
      have sent : step someCrates { s with sockets := [some (0, 0, ⟨[], 0⟩)] } (.send 0) =
          some { s with
            sockets := [none]
            channels := fun other =>
              if other = 0 then s.channels other ++ [⟨[], 0⟩] else s.channels other } := by
        show send _ 0 0 0 ⟨[], 0⟩ = some _
        rw [send, if_pos open_, if_pos room]
        rfl
      refine ⟨_, .step (a := .send 0) received trivial sent, abandoned.quiet, abandoned.sender,
        abandoned.queue, abandoned.returned, ?_, rfl⟩
      show (if (0 : Nat) = 0 then s.channels 0 ++ [⟨[], 0⟩] else s.channels 0).length = _
      rw [if_pos rfl, List.length_append, abandoned.jobs]
      rfl

end Queues

end Cccp
