import Cccp.Control.Attempts

/-!
# When the sender finishes

The sender's controller writes `Done(2)` once nothing is left to start and nothing is
active.  `finishing_settled`: if no attempt of an id fails its signature check, then at
that point its attempt has run and ended, renamed or with an error that is not retried.

An attempt that fails its signature check tells the sender twice: `Failure(0)` starts
the file again and `Failure(2)`, sent for the same attempt when its error reaches the
wrapper, drops the file from the active ones.  `finishing_too_early` is a run in which
`Done(2)` is due while the second attempt has only been spawned.
-/

namespace Cccp

namespace Control

/-! ## Attempts that have ended -/

/-- A writer attempt of `id` is running or about to be started at the receiver. -/
def AttemptOpen (id : UInt32) (s : State Fifo) : Prop :=
  (∃ packet ∈ s.chan.toReceiver, packet.starts id = true) ∨
    s.receiver.pc.spawns = some id ∨
    ∃ task ∈ s.tasks, task.id = id ∧ Phase.isOpen task.phase = true

/-- The latest attempt of `id`. -/
def latest (id : UInt32) (s : State Fifo) : Option WriterTask :=
  (s.tasks.filter fun task => decide (task.id = id)).getLast?

/-- The latest attempt of `id` was renamed, or failed with an error other than a failed
signature check. -/
def LatestSettled (id : UInt32) (s : State Fifo) : Prop :=
  ∃ task, latest id s = some task ∧
    (task.phase = .finished .renamed ∨ task.phase = .finished (.failed false))

/-- The id of the attempt that in this step finds that its file has not the signature of
the manifest. -/
def failedCheck (cfg : Config) (s : State Fifo) (action : Action) : Option UInt32 :=
  match action with
  | .task index .proceed =>
      s.tasks[index]?.bind fun task =>
        match task.phase with
        | .hashing signature =>
            (s.shared.disk.read task.details.partialPath).bind fun contents =>
              if cfg.crates.hash contents = signature then none else some task.id
        | _ => none
  | _ => none

/-- In this step an attempt of `id` fails its signature check. -/
def FailsCheck (cfg : Config) (id : UInt32) (s : State Fifo) (action : Action) : Prop :=
  failedCheck cfg s action = some id

/-! ## Tasks that pass their check -/

/-- The task has not failed its signature check. -/
def Phase.Clean : Phase → Prop
  | .notifying | .removing | .failing true _ | .finished (.failed true) => False
  | _ => True

/-- The last message of an attempt of `id`. -/
def reports (id : UInt32) : Message → Bool
  | .end_ other => decide (other = id)
  | .failure other reason _ => decide (other = id ∧ reason = 2)
  | _ => false

variable {cfg : Config} {s s' : State Fifo} {id : UInt32} {crates : Crates}
  {shared shared' : Shared} {task task' : WriterTask} {action : TaskAction}

theorem clean_move (move : task.Move crates shared action shared' task')
    (clean : Phase.Clean task.phase)
    (passes : action = .proceed → ∀ signature contents, task.phase = .hashing signature →
      shared.disk.read task.details.partialPath = some contents →
      crates.hash contents = signature) : Phase.Clean task'.phase := by
  cases move with
  | popped phase =>
      cases task.details.signature <;> exact trivial
  | mismatched phase read differs => exact absurd (passes rfl _ _ phase read) differs
  | notified phase open_ =>
      rw [phase] at clean
      exact clean.elim
  | removed phase removed =>
      rw [phase] at clean
      exact clean.elim
  | unremoved phase =>
      rw [phase] at clean
      exact clean.elim
  | @reported signature error phase open_ =>
      rw [phase] at clean
      cases signature
      · exact trivial
      · exact clean.elim
  | _ => exact trivial

/-- What a task tells the sender when it ends makes up for the task. -/
theorem stationTokens_move (move : task.Move crates shared action shared' task') :
    stationTokens Phase.isOpen (reports id) id shared' task' =
      stationTokens Phase.isOpen (reports id) id shared task := by
  have same : task'.id = task.id := congrArg FileDetails.id move.details_eq
  have tells := move.tells
  generalize phase : task'.phase = phase' at tells
  rw [stationTokens, stationTokens, same, phase]
  cases tells with
  | nothing same before after => rw [same, before, after]
  | mismatch before =>
      simp [Shared.send, List.countP_append, reports, before, Phase.isOpen]
  | end_ before =>
      simp [Shared.send, List.countP_append, List.countP_singleton, reports, before, Phase.isOpen]
      omega
  | error before =>
      simp [Shared.send, List.countP_append, List.countP_singleton, reports, before, Phase.isOpen]
      omega

/-- Only a task that has failed its check asks for a retry. -/
theorem asks_retry (move : task.Move crates shared action shared' task')
    {description : Option Bytes} (mem : .failure id 0 description ∈ shared'.messages) :
    .failure id 0 description ∈ shared.messages ∨ task.id = id ∧ task.phase = .notifying := by
  have tells := move.tells
  generalize task'.phase = phase' at tells
  cases tells with
  | nothing same before after =>
      rw [same] at mem
      exact .inl mem
  | mismatch before =>
      refine (List.mem_append.mp mem).imp_right fun sent => ?_
      cases List.mem_singleton.mp sent
      exact ⟨rfl, before⟩
  | end_ before =>
      refine (List.mem_append.mp mem).imp_right fun sent => ?_
      cases List.mem_singleton.mp sent
  | error before =>
      refine (List.mem_append.mp mem).imp_right fun sent => ?_
      cases List.mem_singleton.mp sent

/-! ## The attempts of an id that passes its checks -/

/-- The sender counts an attempt of `id` as running. -/
def Sender.Expecting (sender : Sender) (id : UInt32) : Prop :=
  id ∈ sender.active ∨ sender.pc.awaits = some id

/-- What holds of an id none of whose attempts has failed its signature check. -/
structure Tracked (cfg : Config) (id : UInt32) (s : State Fifo) : Prop where
  clean : ∀ task ∈ s.tasks, task.id = id → Phase.Clean task.phase
  quiet : ∀ description, Message.failure id 0 description ∉ s.shared.messages
  once : ∀ details, s.sender.pc ≠ .retrying id details
  apart : id ∈ s.sender.files → ¬ s.sender.Expecting id
  expected : s.sender.pc ≠ .returned → s.sender.Expecting id →
    tokens Phase.isOpen (reports id) id s = 1
  unexpected : s.sender.pc ≠ .returned → ¬ s.sender.Expecting id →
    tokens Phase.isOpen (reports id) id s = 0
  attempted : s.sender.pc.Late → id ∈ cfg.manifest.files → id ∉ s.sender.completed →
    id ∈ s.sender.files ∨ 0 < tokens (fun _ => true) (fun _ => false) id s
  idle : s.sender.pc = .finishing → s.sender.files.entries = [] ∧ s.sender.active.entries = []

/-- Without active files and a file that is being started, no attempt is counted. -/
theorem Sender.not_expecting {sender : Sender} (active : sender.active = ∅)
    (awaits : sender.pc.awaits = none) : ¬ sender.Expecting id := by
  intro expects
  rcases expects with mem | awaited
  · rw [active] at mem
    exact AList.notMem_empty id mem
  · cases awaits.symm.trans awaited

theorem tracked_init (start : (ideal cfg).init s) : Tracked cfg id s := by
  obtain ⟨disk, chan, rfl, rfl⟩ := start
  have none_ : ¬ (initial cfg disk (⟨[], []⟩ : Fifo)).sender.Expecting id :=
    Sender.not_expecting rfl rfl
  refine ⟨nofun, nofun, nofun, fun _ => none_, fun _ expecting => absurd expecting none_,
    fun _ _ => rfl, nofun, nofun⟩

/-! ### Steps of the sender -/

theorem mem_forget {message : Message} {active : HashMap UInt32 FileDetail} :
    id ∈ forget message active ↔ id ∈ active ∧ reports id message = false := by
  cases message with
  | end_ other =>
      rw [forget, AList.mem_erase]
      simp [reports, eq_comm, and_comm]
  | failure other reason description =>
      rw [forget]
      split
      next two =>
        rw [AList.mem_erase]
        simp [reports, two, eq_comm, and_comm]
      next notTwo => simp [reports, notTwo]
  | _ => exact ⟨fun mem => ⟨mem, rfl⟩, fun mem => mem.1⟩

/-- The sender goes on without telling or hearing of an attempt. -/
theorem Tracked.walk (tracked : Tracked cfg id s) (packets : List Packet) (sender : Sender)
    (busy : s.sender.pc.Late) (files : sender.files = s.sender.files)
    (completed : sender.completed = s.sender.completed)
    (expecting : sender.Expecting id ↔ s.sender.Expecting id)
    (once : ∀ details, sender.pc ≠ .retrying id details)
    (idle : sender.pc = .finishing → sender.files.entries = [] ∧ sender.active.entries = []) :
    Tracked cfg id ((s.setToSender packets).setSender sender) := by
  have running : s.sender.pc ≠ .returned := by
    intro returned
    rw [returned] at busy
    exact busy
  refine ⟨tracked.clean, tracked.quiet, once, ?_, ?_, ?_, ?_, idle⟩
  · intro mem expects
    have mem : id ∈ sender.files := mem
    rw [files] at mem
    exact tracked.apart mem (expecting.mp expects)
  · exact fun _ expects => tracked.expected running (expecting.mp expects)
  · exact fun _ unexpected => tracked.unexpected running fun expects =>
      unexpected (expecting.mpr expects)
  · intro _ mem incomplete
    have incomplete : id ∉ sender.completed := incomplete
    rw [completed] at incomplete
    have there := tracked.attempted busy mem incomplete
    rwa [← files] at there

/-- The sender returns. -/
theorem Tracked.return_ (tracked : Tracked cfg id s) (returned : s'.sender.pc = .returned)
    (tasks : s'.tasks = s.tasks) (messages : s'.shared.messages <:+ s.shared.messages)
    (files : s'.sender.files = s.sender.files) (active : s'.sender.active = s.sender.active) :
    Tracked cfg id s' := by
  refine ⟨?_, ?_, ?_, ?_, fun running => absurd returned running,
    fun running => absurd returned running, ?_, ?_⟩
  · rw [tasks]
    exact tracked.clean
  · exact fun description mem => tracked.quiet description (messages.subset mem)
  · rw [returned]
    exact nofun
  · rintro mem (here | awaited)
    · rw [files] at mem
      rw [active] at here
      exact tracked.apart mem (.inl here)
    · rw [returned] at awaited
      cases awaited
  · rw [returned]
    exact nofun
  · rw [returned]
    exact nofun

theorem Sender.afterMessage_eq (sender : Sender) :
    sender.afterMessage.pc = .finishing →
      sender.files.entries = [] ∧ sender.active.entries = [] := by
  intro finishing
  unfold afterMessage at finishing
  split at finishing
  next done => simpa [Sender.done] using done
  next => cases finishing

theorem SenderPc.Free.expecting {sender : Sender} (free : sender.pc.Free) :
    sender.Expecting id ↔ id ∈ sender.active := by
  rw [Sender.Expecting, free.awaits]
  exact or_iff_left nofun

/-- The sender writes its manifest: no attempt is told of yet. -/
theorem Tracked.manifest (agreed : Agreed cfg s) (tracked : Tracked cfg id s)
    (pc : s.sender.pc = .building) : Tracked cfg id
      (s.senderSays .awaitingCompleted (.message (.manifest cfg.manifest))) := by
  obtain ⟨files, active, -⟩ := agreed.early (by rw [pc]; trivial)
  have before : ¬ s.sender.Expecting id := Sender.not_expecting active (by rw [pc]; rfl)
  have after : ¬ (s.sender.goto .awaitingCompleted).Expecting id :=
    Sender.not_expecting active rfl
  refine ⟨tracked.clean, tracked.quiet, by rintro _ ⟨⟩, fun _ => after,
    fun _ expects => absurd expects after, fun _ _ => ?_, by rintro ⟨⟩, by rintro ⟨⟩⟩
  rw [tokens_senderSays]
  exact tracked.unexpected (by rw [pc]; rintro ⟨⟩) before

/-- The sender hears which files are complete. -/
theorem Tracked.complete (agreed : Agreed cfg s) (tracked : Tracked cfg id s) {ids : List UInt32}
    (rest : List Packet) (pc : s.sender.pc = .awaitingCompleted) :
    Tracked cfg id ((s.setToSender rest).setSender (s.sender.complete ids)) := by
  obtain ⟨files, active, -⟩ := agreed.early (by rw [pc]; trivial)
  have free : (s.sender.complete ids).pc.Free := by
    rw [Sender.complete]
    split <;> trivial
  have before : ¬ s.sender.Expecting id := Sender.not_expecting active (by rw [pc]; rfl)
  have after : ¬ (s.sender.complete ids).Expecting id :=
    fun expects => before (.inl (free.expecting.mp expects))
  refine ⟨tracked.clean, tracked.quiet, ?_, fun _ => after,
    fun _ expects => absurd expects after,
    fun _ _ => tracked.unexpected (by rw [pc]; rintro ⟨⟩) before, ?_, ?_⟩
  · intro details same
    have same : (s.sender.complete ids).pc = .retrying id details := same
    rw [same] at free
    exact free
  · intro _ mem incomplete
    refine .inl ?_
    show id ∈ (s.sender.complete ids).files
    rw [Sender.complete, mem_foldl_erase, files]
    exact ⟨mem, incomplete⟩
  · intro finishing
    have finishing : (s.sender.complete ids).pc = .finishing := finishing
    rw [Sender.complete] at finishing
    split at finishing <;> cases finishing

/-- The sender starts a file. -/
theorem Tracked.start (tracked : Tracked cfg id s) {details : FileDetail}
    (pc : s.sender.pc = .filling)
    (found : s.sender.files.lookup s.sender.nextId = some details) :
    Tracked cfg id ((s.senderSays (.starting s.sender.nextId details)
        (.message (.start s.sender.nextId))).setSender
      { s.sender with
        pc := .starting s.sender.nextId details
        files := s.sender.files.erase s.sender.nextId }) := by
  have running : s.sender.pc ≠ .returned := by rw [pc]; rintro ⟨⟩
  have free : s.sender.pc.Free := by rw [pc]; trivial
  have known : s.sender.nextId ∈ s.sender.files :=
    AList.lookup_isSome.mp (by rw [found]; rfl)
  have told : ∀ phases news, tokens phases news id
      (s.senderSays (.starting s.sender.nextId details) (.message (.start s.sender.nextId))) =
      tokens phases news id s + if s.sender.nextId = id then 1 else 0 := by
    intro phases news
    rw [tokens_senderSays]
    simp only [Packet.starts, decide_eq_true_eq]
  rcases eq_or_ne s.sender.nextId id with rfl | differs
  · have before := tracked.apart known
    refine ⟨tracked.clean, tracked.quiet, by rintro _ ⟨⟩, ?_, fun _ _ => ?_, ?_,
      fun _ _ _ => .inr ?_, by rintro ⟨⟩⟩
    · exact fun mem => absurd rfl (AList.mem_erase.mp mem).1
    · rw [tokens_setSender, told, if_pos rfl, tracked.unexpected running before]
    · exact fun _ unexpected => absurd (.inr rfl) unexpected
    · rw [tokens_setSender, told, if_pos rfl]
      omega
  · have same : ∀ {sender : Sender}, sender = { s.sender with
          pc := .starting s.sender.nextId details
          files := s.sender.files.erase s.sender.nextId } →
        (sender.Expecting id ↔ s.sender.Expecting id) := by
      rintro _ rfl
      rw [free.expecting]
      exact or_iff_left fun awaited => differs (Option.some.inj awaited)
    refine ⟨tracked.clean, tracked.quiet, by rintro _ ⟨⟩, ?_, ?_, ?_, ?_, by rintro ⟨⟩⟩
    · intro mem expects
      exact tracked.apart (AList.mem_erase.mp mem).2 ((same rfl).mp expects)
    · intro _ expects
      rw [tokens_setSender, told, if_neg differs]
      exact tracked.expected running ((same rfl).mp expects)
    · intro _ unexpected
      rw [tokens_setSender, told, if_neg differs]
      exact tracked.unexpected running fun expects =>
        unexpected ((same rfl).mpr expects)
    · intro _ mem incomplete
      rw [tokens_setSender, told, if_neg differs]
      refine (tracked.attempted free.late mem incomplete).imp_left fun here => ?_
      exact AList.mem_erase.mpr ⟨differs.symm, here⟩

/-- The sender hears of an attempt, and retries nothing. -/
theorem Tracked.told (tracked : Tracked cfg id s) {message : Message} {rest : List Message}
    (pc : s.sender.pc = .waiting) (inbox : s.shared.messages = message :: rest) :
    Tracked cfg id ((s.setMessages rest).setSender
      { s.sender with active := forget message s.sender.active }.afterMessage) := by
  have running : s.sender.pc ≠ .returned := by rw [pc]; rintro ⟨⟩
  have free : s.sender.pc.Free := by rw [pc]; trivial
  have read := @tokens_setMessages s Phase.isOpen (reports id) id message rest inbox
  have later := Sender.afterMessage_free
    { s.sender with active := forget message s.sender.active }
  have expects : ∀ {sender : Sender}, sender =
      { s.sender with active := forget message s.sender.active }.afterMessage →
      (sender.Expecting id ↔ id ∈ s.sender.active ∧ reports id message = false) := by
    rintro _ rfl
    rw [later.expecting]
    exact mem_forget
  refine ⟨tracked.clean, ?_, ?_, ?_, ?_, ?_, ?_, Sender.afterMessage_eq _⟩
  · intro description mem
    exact tracked.quiet description (by rw [inbox]; exact List.mem_cons_of_mem _ mem)
  · intro details same
    have same : Sender.pc (Sender.afterMessage
      { s.sender with active := forget message s.sender.active }) = .retrying id details := same
    rw [same] at later
    exact later
  · intro mem here
    exact tracked.apart mem (.inl ((expects rfl).mp here).1)
  · intro _ here
    obtain ⟨mem, other⟩ := (expects rfl).mp here
    rw [other] at read
    rw [tokens_setSender]
    rw [tracked.expected running (.inl mem)] at read
    exact read
  · intro _ gone
    rw [tokens_setSender]
    by_cases mem : id ∈ s.sender.active
    · have own : reports id message = true := by
        by_contra other
        exact gone ((expects rfl).mpr ⟨mem, by simpa using other⟩)
      rw [own, tracked.expected running (.inl mem)] at read
      simpa using read
    · rw [tracked.unexpected running fun here => mem (free.expecting.mp here)] at read
      omega
  · intro _ mem incomplete
    have same := @tokens_setMessages s (fun _ => true) (fun _ => false) id message rest inbox
    have there := tracked.attempted free.late mem incomplete
    rwa [← same] at there

/-- The sender starts another file again. -/
theorem Tracked.retry (tracked : Tracked cfg id s) {other : UInt32} {details : FileDetail}
    {description : Option Bytes} {rest : List Message} (pc : s.sender.pc = .waiting)
    (inbox : s.shared.messages = .failure other 0 description :: rest) :
    Tracked cfg id ((s.setMessages rest).senderSays (.retrying other details)
      (.message (.start other))) := by
  have running : s.sender.pc ≠ .returned := by rw [pc]; rintro ⟨⟩
  have free : s.sender.pc.Free := by rw [pc]; trivial
  have differs : other ≠ id := by
    rintro rfl
    exact tracked.quiet description (by rw [inbox]; exact List.mem_cons_self)
  have same : (s.sender.goto (.retrying other details)).Expecting id ↔ s.sender.Expecting id := by
    rw [free.expecting]
    exact or_iff_left fun awaited => differs (Option.some.inj awaited)
  have told : ∀ phases news, (news (.failure other 0 description) = false) →
      tokens phases news id ((s.setMessages rest).senderSays (.retrying other details)
        (.message (.start other))) = tokens phases news id s := by
    intro phases news silent
    have read := @tokens_setMessages s phases news id _ rest inbox
    rw [tokens_senderSays, ← read]
    simp [Packet.starts, silent, differs]
  refine ⟨tracked.clean, ?_, ?_, ?_, ?_, ?_, ?_, by rintro ⟨⟩⟩
  · intro description mem
    exact tracked.quiet description (by rw [inbox]; exact List.mem_cons_of_mem _ mem)
  · intro details same
    cases same
    exact differs rfl
  · exact fun mem expects => tracked.apart mem (same.mp expects)
  · intro _ expects
    rw [told _ _ (by simp [reports])]
    exact tracked.expected running (same.mp expects)
  · intro _ unexpected
    rw [told _ _ (by simp [reports])]
    exact tracked.unexpected running fun expects => unexpected (same.mpr expects)
  · intro _ mem incomplete
    rw [told _ _ rfl]
    exact tracked.attempted free.late mem incomplete

theorem tracked_sender (agreed : Agreed cfg s) (tracked : Tracked cfg id s)
    (move : SenderMove cfg s s') : Tracked cfg id s' := by
  cases move with
  | nothing pc empty => exact tracked.return_ rfl rfl (List.suffix_refl _) rfl rfl
  | allCompleted pc => exact tracked.return_ rfl rfl (List.suffix_refl _) rfl rfl
  | finish pc => exact tracked.return_ rfl rfl (List.suffix_refl _) rfl rfl
  | stopped waits later => exact tracked.return_ rfl rfl later rfl rfl
  | manifest pc => exact tracked.manifest agreed pc
  | completed pc => exact tracked.complete agreed _ pc
  | skip pc =>
      refine tracked.walk s.chan.toSender _ (by rw [pc]; trivial) rfl rfl Iff.rfl tracked.once ?_
      intro finishing
      rw [pc] at finishing
      cases finishing
  | start pc found => exact tracked.start pc found
  | full pc =>
      have free : s.sender.pc.Free := by rw [pc]; trivial
      refine tracked.walk s.chan.toSender _ free.late rfl rfl ?_ (by rintro _ ⟨⟩) (by rintro ⟨⟩)
      exact (@SenderPc.Free.expecting _ (s.sender.goto .waiting) trivial).trans free.expecting.symm
  | @started other details index rest pc inbox =>
      refine tracked.walk rest _ (by rw [pc]; trivial) rfl rfl ?_ (by rintro _ ⟨⟩) (by rintro ⟨⟩)
      simp only [Sender.Expecting, pc, SenderPc.awaits, AList.mem_insert, Option.some.injEq]
      constructor
      · rintro ((same | mem) | absurd_)
        · exact .inr same.symm
        · exact .inl mem
        · cases absurd_
      · rintro (mem | same)
        · exact .inl (.inr mem)
        · exact .inl (.inl same.symm)
  | told pc inbox => exact tracked.told pc inbox
  | retry pc inbox => exact tracked.retry pc inbox
  | @retried other details index rest pc inbox =>
      have differs : other ≠ id := by
        rintro rfl
        exact tracked.once details pc
      have free := s.sender.afterMessage_free
      refine tracked.walk rest _ (by rw [pc]; trivial) rfl rfl ?_ ?_ s.sender.afterMessage_eq
      · refine Iff.trans (SenderPc.Free.expecting free) ⟨.inl, ?_⟩
        rintro (mem | awaited)
        · exact mem
        · rw [pc] at awaited
          exact absurd (Option.some.inj awaited) differs
      · intro details same
        have same : s.sender.afterMessage.pc = .retrying id details := same
        rw [same] at free
        exact free

/-! ### Steps of the receiver and of its tasks -/

theorem tracked_receiver (agreed : Agreed cfg s) (tracked : Tracked cfg id s)
    (move : ReceiverMove cfg s s') : Tracked cfg id s' := by
  have isOpen : tokens Phase.isOpen (reports id) id s' = tokens Phase.isOpen (reports id) id s :=
    tokens_receiver rfl agreed move
  have all : tokens (fun _ => true) (fun _ => false) id s' =
      tokens (fun _ => true) (fun _ => false) id s := tokens_receiver rfl agreed move
  obtain ⟨clean, quiet, once, apart, expected, unexpected, attempted, idle⟩ := tracked
  refine ⟨?_, ?_, ?_, ?_, ?_, ?_, ?_, ?_⟩
  · intro task mem own
    rcases move.mem_tasks mem with mem | ⟨details, -, rfl⟩
    · exact clean task mem own
    · exact trivial
  · rwa [move.messages_eq]
  all_goals rw [move.sender_eq]
  · exact once
  · exact apart
  · rwa [isOpen]
  · rwa [isOpen]
  · rwa [all]
  · exact idle

theorem tracked_task {index : Nat} (tracked : Tracked cfg id s)
    (here : s.tasks[index]? = some task)
    (move : task.Move cfg.crates s.shared action shared' task')
    (passes : ¬ FailsCheck cfg id s (.task index action)) :
    Tracked cfg id { s with shared := shared', tasks := s.tasks.set index task' } := by
  have mem := List.mem_of_getElem? here
  have same : task'.id = task.id := congrArg FileDetails.id move.details_eq
  have isOpen := @tokens_task s Phase.isOpen (reports id) id index task task' shared' here
  rw [stationTokens_move move] at isOpen
  have isOpen := Nat.add_right_cancel isOpen
  have all := @tokens_task s (fun _ => true) (fun _ => false) id index task task' shared' here
  simp only [stationTokens, same, List.countP_false] at all
  have all := Nat.add_right_cancel all
  obtain ⟨clean, quiet, once, apart, expected, unexpected, attempted, idle⟩ := tracked
  refine ⟨?_, ?_, once, apart, ?_, ?_, ?_, idle⟩
  · intro other mem' own
    rcases List.mem_or_eq_of_mem_set mem' with mem' | rfl
    · exact clean other mem' own
    · apply clean_move move (clean task mem (same ▸ own))
      rintro rfl signature contents phase read
      by_contra differs
      apply passes
      simp only [FailsCheck, failedCheck, here, Option.bind_some, phase, read, if_neg differs]
      rw [← same, own]
  · intro description mem'
    rcases asks_retry move mem' with mem' | ⟨own, phase⟩
    · exact quiet description mem'
    · have clean := clean task mem own
      rw [phase] at clean
      exact clean
  · rwa [isOpen]
  · rwa [isOpen]
  · rwa [all]

theorem tracked_move {action : Action} (agreed : Agreed cfg s) (tracked : Tracked cfg id s)
    (passes : ¬ FailsCheck cfg id s action) (move : Move cfg s action s') :
    Tracked cfg id s' := by
  cases move with
  | sender alive move => exact tracked_sender agreed tracked move
  | receiver alive move => exact tracked_receiver agreed tracked move
  | task alive here move => exact tracked_task tracked here move passes
  | senderExit =>
      obtain ⟨clean, quiet, once, apart, expected, unexpected, attempted, idle⟩ := tracked
      exact ⟨clean, quiet, once, apart, expected, unexpected, attempted, idle⟩
  | receiverExit =>
      obtain ⟨clean, quiet, once, apart, expected, unexpected, attempted, idle⟩ := tracked
      exact ⟨clean, quiet, once, apart, expected, unexpected, attempted, idle⟩

/-- In a run in which no attempt of `id` fails its signature check, `id` is tracked. -/
theorem tracked_reached
    (reached : (ideal cfg).ReachableVia (fun s action => ¬ FailsCheck cfg id s action) s) :
    Tracked cfg id s :=
  reached.invariant (fun _ start => tracked_init start)
    fun _ _ _ before tracked passes next =>
      tracked_move (agreed_reached before.reachable) tracked passes (step_cases next)

/-! ## The end of a transfer -/

theorem not_attemptOpen (ended : tokens Phase.isOpen (reports id) id s = 0) :
    ¬ AttemptOpen id s := by
  simp only [tokens, Nat.add_eq_zero_iff, List.countP_eq_zero] at ended
  obtain ⟨⟨⟨unsent, unspawned⟩, closed⟩, -⟩ := ended
  rintro (⟨packet, mem, starts⟩ | spawns | ⟨task, mem, own, isOpen⟩)
  · exact unsent packet mem starts
  · rw [ReceiverPc.spawnCount, if_pos spawns] at unspawned
    cases unspawned
  · exact closed task mem (by rw [isOpen, Bool.and_true, decide_eq_true own])

theorem latestSettled (tracked : Tracked cfg id s) (closed : ¬ AttemptOpen id s)
    (attempted : 0 < tokens (fun _ => true) (fun _ => false) id s) : LatestSettled id s := by
  have spawned : ∃ task ∈ s.tasks, task.id = id := by
    by_contra none_
    have unsent : s.chan.toReceiver.countP (Packet.starts id) = 0 :=
      List.countP_eq_zero.mpr fun packet mem starts => closed (.inl ⟨packet, mem, starts⟩)
    have unspawned : s.receiver.pc.spawnCount id = 0 :=
      if_neg fun spawns => closed (.inr (.inl spawns))
    have untasked : s.tasks.countP (fun task => decide (task.id = id) && true) = 0 :=
      List.countP_eq_zero.mpr fun task mem own => none_ ⟨task, mem, by simpa using own⟩
    rw [tokens, unsent, unspawned, untasked, List.countP_false] at attempted
    exact absurd attempted (Nat.lt_irrefl 0)
  obtain ⟨task, mem, own⟩ := spawned
  have kept : task ∈ s.tasks.filter fun task => decide (task.id = id) :=
    List.mem_filter.mpr ⟨mem, decide_eq_true own⟩
  obtain ⟨last, is⟩ := Option.isSome_iff_exists.mp
    (List.getLast?_isSome.mpr (List.ne_nil_of_mem kept))
  obtain ⟨mem, own⟩ := List.mem_filter.mp (List.mem_of_getLast? is)
  have own : last.id = id := of_decide_eq_true own
  refine ⟨last, is, ?_⟩
  have clean := tracked.clean last mem own
  have ended : Phase.isOpen last.phase = false := by
    rw [← Bool.not_eq_true]
    exact fun isOpen => closed (.inr (.inr ⟨last, mem, own, isOpen⟩))
  cases phase : last.phase with
  | finished outcome =>
      rw [phase] at clean
      cases outcome with
      | renamed => exact .inl rfl
      | failed signature =>
          cases signature
          · exact .inr rfl
          · exact clean.elim
  | _ =>
      rw [phase] at ended
      cases ended

/-- **Completion.**  When the sender's controller is about to write `Done(2)`, every id
none of whose attempts failed its signature check has no attempt running or about to be
started, and if it was not completed before, its latest attempt was renamed or failed
with an error that is not retried. -/
theorem finishing_settled (keep : UInt32 → Prop)
    (reached : (ideal cfg).ReachableVia
      (fun s action => ∀ id, keep id → ¬ FailsCheck cfg id s action) s)
    (finishing : s.sender.pc = .finishing) (id : UInt32) (kept : keep id) :
    ¬ AttemptOpen id s ∧
      (id ∈ cfg.manifest.files → id ∉ s.sender.completed → LatestSettled id s) := by
  have agreed := agreed_reached reached.reachable
  have tracked : Tracked cfg id s := tracked_reached (reached.mono fun _ _ passes => passes id kept)
  have free : s.sender.pc.Free := by rw [finishing]; trivial
  obtain ⟨files, active⟩ := tracked.idle finishing
  have ended := tracked.unexpected (by rw [finishing]; nofun) fun expects => by
    have mem := AList.mem_keys.mp (free.expecting.mp expects)
    rw [AList.keys, active] at mem
    cases mem
  have closed := not_attemptOpen ended
  refine ⟨closed, fun listed incomplete => ?_⟩
  rcases tracked.attempted free.late listed incomplete with mem | attempted
  · have mem := AList.mem_keys.mp mem
    rw [AList.keys, files] at mem
    cases mem
  · exact latestSettled tracked closed attempted

/-! ## Runs of one empty file -/

def finishes (s : State Fifo) : Bool :=
  (match s.sender.pc with | .finishing => true | _ => false) && s.sender.completed.isEmpty

/-- The one attempt of the file ends before the sender finishes. -/
theorem finishing_settled_emptyFile : ∃ s, (ideal emptyFile).Reachable s ∧
    s.sender.pc = .finishing ∧ ¬ AttemptOpen 0 s ∧ LatestSettled 0 s := by
  have start : (ideal emptyFile).init (initial emptyFile emptyDisk ⟨[], []⟩) :=
    ⟨emptyDisk, _, rfl, rfl⟩
  obtain ⟨s, reached, ends⟩ := Machine.reachableVia_of_test start
    (startedOnce ++ List.replicate 8 (.task 0 .proceed) ++ [.sender, .sender])
    (fun s action => (failedCheck emptyFile s action).isNone) finishes (by decide +kernel)
  obtain ⟨finishing, completed⟩ := Bool.and_eq_true_iff.mp ends
  have pc : s.sender.pc = .finishing := by
    split at finishing
    next pc => exact pc
    next => cases finishing
  have passed : (ideal emptyFile).ReachableVia
      (fun s action => ∀ id, True → ¬ FailsCheck emptyFile id s action) s := by
    refine reached.mono fun s action passes id _ fails => ?_
    rw [fails] at passes
    cases passes
  obtain ⟨closed, settled⟩ := finishing_settled (fun _ => True) passed pc 0 trivial
  refine ⟨s, reached.reachable, pc, closed, settled (by decide) ?_⟩
  rw [List.isEmpty_iff.mp completed]
  exact List.not_mem_nil

/-- The writer task of the first attempt fails its check. -/
def firstAttempt : List Action :=
  startedOnce ++ List.replicate 9 (.task 0 .proceed)

/-- The sender reads `Failure(0)`, starts the file again, and reads `Failure(2)`. -/
def secondAttempt : List Action :=
  [.sender, .sender, .receiver true, .receiver true, .receiver true, .receiver true,
    .sender, .sender, .sender]

/-- The sender is about to write `Done(2)` and the second attempt has only been spawned. -/
def finishesEarly (s : State Fifo) : Bool :=
  s.sender.alive && (match s.sender.pc with | .finishing => true | _ => false) &&
    (match latest 0 s with | some ⟨_, .opening⟩ => true | _ => false)

theorem finishing_too_early : ∃ s, (ideal emptyFile).Reachable s ∧ s.sender.alive = true ∧
    s.sender.pc = .finishing ∧ AttemptOpen 0 s ∧ ¬ LatestSettled 0 s := by
  have start : (ideal emptyFile).init (initial emptyFile leftoverDisk ⟨[], []⟩) :=
    ⟨leftoverDisk, _, rfl, rfl⟩
  obtain ⟨s, reached, early⟩ := Machine.reachable_of_test start
    (firstAttempt ++ secondAttempt) finishesEarly (by decide +kernel)
  simp only [finishesEarly, Bool.and_eq_true] at early
  obtain ⟨⟨alive, finishing⟩, opening⟩ := early
  split at finishing
  next pc =>
    split at opening
    next details last =>
      have mem := List.mem_filter.mp (List.mem_of_getLast? last)
      refine ⟨s, reached, alive, pc, .inr (.inr ⟨_, mem.1, of_decide_eq_true mem.2, rfl⟩), ?_⟩
      rintro ⟨task, same, settled⟩
      rw [last] at same
      cases same
      rcases settled with settled | settled <;> cases settled
    next => cases opening
  next => cases finishing

end Control

end Cccp
