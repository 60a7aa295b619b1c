import Cccp.Control.Attempts

/-!
# The attempt after a failed signature check

A writer task that fails its signature check tells the sender, and only then removes the
partial file.  `retries_clean`: if the removal succeeds and comes before the receiver asks
whether the file is there and before the next attempt opens it, then the next attempt
starts at 0, with an empty file that no step of an older task touches.

Nothing in the program makes the removal come first.  `retry_opens_leftover` is a run in
which the next attempt opens the file that failed the check.
-/

namespace Cccp

namespace Control

/-! ## Which order the removal has to keep -/

def Phase.isOpening : Phase → Bool
  | .opening => true
  | _ => false

def Phase.isRemoving : Phase → Bool
  | .removing => true
  | _ => false

/-- The task has opened its file and has not failed. -/
def Phase.isWorking : Phase → Bool
  | .seeking _ | .subscribing .. | .receiving .. | .popping | .hashing _ | .notifying | .moving
  | .ending | .finished .renamed => true
  | _ => false

/-- The task has not failed. -/
def Phase.isKept (phase : Phase) : Bool :=
  Phase.isOpening phase || Phase.isWorking phase

/-- A task of `id` is about to remove its partial file. -/
def removing (id : UInt32) (s : State Fifo) : Bool :=
  s.tasks.any fun task => decide (task.id = id) && Phase.isRemoving task.phase

/-- No other file has the partial path of `id` for a working path. -/
def keepsApart (id : UInt32) (files : HashMap UInt32 FileDetails) : Bool :=
  match files.lookup id with
  | none => true
  | some details => files.entries.all fun entry =>
      decide (entry.1 = id ∨
        details.partialPath ≠ entry.2.partialPath ∧ details.partialPath ≠ entry.2.path)

/-- In this step the receiver asks whether the partial file of `id` is there. -/
def asksForFile (id : UInt32) (s : State Fifo) : Bool :=
  match s.receiver.pc, s.chan.toReceiver with
  | .waiting, .message (.start other) :: _ =>
      decide (other = id) && (s.receiver.files.lookup id).any fun details =>
        decide (details.startIndex > 0)
  | _, _ => false

/-- The removal of the partial file of `id` succeeds, and comes before this step if the
step needs the file to be gone. -/
def removesFirst (id : UInt32) (s : State Fifo) (action : Action) : Bool :=
  keepsApart id s.receiver.files &&
    match action with
    | .receiver _ => !(asksForFile id s && removing id s)
    | .task index action =>
        match s.tasks[index]? with
        | none => true
        | some task =>
            decide (task.id ≠ id) ||
              match task.phase, action with
              | .opening, .proceed => !removing id s
              | .removing, .fail .. => false
              | _, _ => true
    | _ => true

/-- What is demanded of a step: the index sent for a retry is 0, a retry opens an
empty file, and a task with the same id as a task at work changes nothing on the disk. -/
structure CleanStep (id : UInt32) (s : State Fifo) (action : Action) (s' : State Fifo) :
    Prop where
  index : ∀ details, s.receiver.pc = .replying details → details.id = id →
    (∃ task ∈ s.tasks, task.id = id) → details.startIndex = 0
  opens : ∀ j choice task task' file, action = .task j choice → s.tasks[j]? = some task →
    task.id = id → task.phase = .opening →
    (∃ i older, i ≠ j ∧ s.tasks[i]? = some older ∧ older.id = id) →
    s'.tasks[j]? = some task' → task'.phase = .seeking file → s'.shared.disk.contents file = []
  untouched : ∀ i j choice task other, action = .task i choice → s.tasks[i]? = some task →
    task.id = id → i ≠ j → s.tasks[j]? = some other → other.id = id →
    Phase.isWorking other.phase = true → s'.shared.disk = s.shared.disk

/-! ## Counting the attempts that have not failed -/

/-- A message that asks the sender to start `id` again. -/
def asks (id : UInt32) : Message → Bool
  | .failure other reason _ => decide (other = id ∧ reason = 0)
  | _ => false

variable {cfg : Config} {s s' : State Fifo} {id : UInt32} {crates : Crates}
  {shared shared' : Shared} {task task' : WriterTask} {action : TaskAction}

theorem countP_kept (tasks : List WriterTask) :
    tasks.countP (fun task => decide (task.id = id) && Phase.isKept task.phase) =
      tasks.countP (fun task => decide (task.id = id) && Phase.isOpening task.phase) +
        tasks.countP (fun task => decide (task.id = id) && Phase.isWorking task.phase) := by
  induction tasks with
  | nil => rfl
  | cons task rest ih =>
      have apart : Phase.isOpening task.phase = true → Phase.isWorking task.phase = false := by
        intro opening
        cases phase : task.phase <;> rw [phase] at opening <;> first | rfl | cases opening
      have head : (if (decide (task.id = id) && Phase.isKept task.phase) = true then 1 else 0) =
          (if (decide (task.id = id) && Phase.isOpening task.phase) = true then 1 else 0) +
          if (decide (task.id = id) && Phase.isWorking task.phase) = true then 1 else 0 := by
        unfold Phase.isKept
        by_cases own : task.id = id <;> by_cases opening : Phase.isOpening task.phase = true <;>
          simp [own, opening, apart]
      rw [List.countP_cons, List.countP_cons, List.countP_cons, ih, head]
      omega

/-- While a task of `id` is at work, no other attempt of `id` is on its way. -/
theorem opening_of_working (single : tokens Phase.isKept (asks id) id s ≤ 1)
    (mem : task ∈ s.tasks) (own : task.id = id) (working : Phase.isWorking task.phase = true) :
    tokens Phase.isOpening (asks id) id s = 0 := by
  have here : 0 < s.tasks.countP
      (fun task => decide (task.id = id) && Phase.isWorking task.phase) :=
    List.countP_pos_iff.mpr ⟨task, mem, by rw [working, decide_eq_true own]; rfl⟩
  rw [tokens, countP_kept] at single
  unfold tokens
  omega

/-- While an attempt of `id` is on its way, a task of `id` that is past opening has failed. -/
theorem not_kept_of_waiting (single : tokens Phase.isKept (asks id) id s ≤ 1)
    (waits : 0 < tokens Phase.isOpening (asks id) id s) (mem : task ∈ s.tasks)
    (own : task.id = id) (opened : Phase.isOpening task.phase = false) :
    Phase.isKept task.phase = false := by
  rw [Phase.isKept, opened, Bool.false_or, ← Bool.not_eq_true]
  intro working
  rw [opening_of_working single mem own working] at waits
  exact Nat.lt_irrefl 0 waits

/-- Of two attempts of `id`, one has failed. -/
theorem not_kept_of_kept (single : tokens Phase.isKept (asks id) id s ≤ 1) {i j : Nat}
    (apart : i ≠ j) (here : s.tasks[i]? = some task) (own : task.id = id)
    (there : s.tasks[j]? = some task') (own' : task'.id = id)
    (kept : Phase.isKept task'.phase = true) : Phase.isKept task.phase = false := by
  rw [← Bool.not_eq_true]
  intro kept'
  have two := @two_le_countP _
    (fun task : WriterTask => decide (task.id = id) && Phase.isKept task.phase) _ _ _ _ _
    apart here there (by simp [own, kept']) (by simp [own', kept])
  unfold tokens at single
  omega

/-! ### Steps of a task -/

theorem kept_move (move : task.Move crates shared action shared' task')
    (kept : Phase.isKept task'.phase = true) : Phase.isKept task.phase = true := by
  have from_ : ∀ {phase : Phase}, task.phase = phase → Phase.isKept phase = true →
      Phase.isKept task.phase = true := by
    rintro _ rfl kept
    exact kept
  cases move with
  | opened phase _ => exact from_ phase rfl
  | seeked phase _ _ => exact from_ phase rfl
  | subscribed phase _ => exact from_ phase rfl
  | received phase _ _ _ _ => exact from_ phase rfl
  | flushed phase _ => exact from_ phase rfl
  | popped phase => exact from_ phase rfl
  | verified phase _ _ => exact from_ phase rfl
  | mismatched phase _ _ => exact from_ phase rfl
  | notified phase _ => exact from_ phase rfl
  | moved phase _ => exact from_ phase rfl
  | ended phase _ => exact from_ phase rfl
  | removed _ _ | unremoved _ | reported _ _ | keyPanicked _ _ | seekPanicked _ _ _
  | keystreamPanicked _ _ _ _ _ _ | sendPanicked _ _ | writeFailed _ _ _ | failed _ _ =>
      cases kept

theorem opening_move (move : task.Move crates shared action shared' task') :
    Phase.isOpening task'.phase = false := by
  cases move with
  | popped phase => cases task.details.signature <;> rfl
  | _ => rfl

/-- A step of a task is no matter of another id. -/
theorem stationTokens_other (move : task.Move crates shared action shared' task')
    (other : task.id ≠ id) (phases : Phase → Bool) :
    stationTokens phases (asks id) id shared' task' =
      stationTokens phases (asks id) id shared task := by
  have other' : task'.id ≠ id := by
    rw [WriterTask.id, move.details_eq]
    exact other
  rw [stationTokens, stationTokens, if_neg fun own => other' own.1, if_neg fun own => other own.1]
  have tells := move.tells
  generalize task'.phase = phase' at tells
  cases tells with
  | nothing same before after => rw [same]
  | mismatch before => simp [Shared.send, List.countP_append, asks, other]
  | end_ before => simp [Shared.send, List.countP_append, asks]
  | error before => simp [Shared.send, List.countP_append, asks]

/-- No step of a task makes an attempt that has not failed. -/
theorem keptTokens_move (move : task.Move crates shared action shared' task') :
    stationTokens Phase.isKept (asks id) id shared' task' ≤
      stationTokens Phase.isKept (asks id) id shared task := by
  by_cases own : task.id = id
  · have own' : task'.id = id := by
      rw [WriterTask.id, move.details_eq]
      exact own
    have kept := kept_move move
    have tells := move.tells
    rw [stationTokens, stationTokens]
    generalize task'.phase = phase' at tells kept
    cases tells with
    | nothing same before after =>
        rw [same]
        refine Nat.add_le_add_right ?_ _
        split
        next kept' => rw [if_pos ⟨own, kept kept'.2⟩]
        next => exact Nat.zero_le _
    | mismatch before =>
        have said : (shared.send (.failure task.id 0 none)).messages.countP (asks id) =
            shared.messages.countP (asks id) + 1 := by
          simp [Shared.send, List.countP_append, asks, own]
        have notKept : Phase.isKept .removing = false := rfl
        have kept' : Phase.isKept task.phase = true := by rw [before]; rfl
        rw [said, if_neg (by simp [notKept]), if_pos ⟨own, kept'⟩]
        omega
    | end_ before =>
        simp [Shared.send, List.countP_append, asks, own, own', before, Phase.isKept,
          Phase.isOpening, Phase.isWorking]
    | error before =>
        simp [Shared.send, List.countP_append, asks, Phase.isKept, Phase.isOpening,
          Phase.isWorking]
  · exact (stationTokens_other move own _).le

/-- Apart from asking for a retry, a step of a task makes no new attempt. -/
theorem openingTokens_move (move : task.Move crates shared action shared' task') :
    task'.phase = .removing ∨
      stationTokens Phase.isOpening (asks id) id shared' task' =
        shared.messages.countP (asks id) := by
  have tells := move.tells
  rw [stationTokens, opening_move move, if_neg fun both => Bool.false_ne_true both.2, Nat.zero_add]
  generalize task'.phase = phase' at tells
  cases tells with
  | nothing same before after => exact .inr (by rw [same])
  | mismatch before => exact .inl rfl
  | end_ before => exact .inr (by simp [Shared.send, List.countP_append, asks])
  | error before => exact .inr (by simp [Shared.send, List.countP_append, asks])

theorem proceed_of_opening (move : task.Move crates shared action shared' task')
    (phase : task.phase = .opening) (working : Phase.isWorking task'.phase = true) :
    action = .proceed := by
  cases move with
  | received before _ _ _ _ => cases phase.symm.trans before
  | removed _ _ | unremoved _ | writeFailed _ _ _ | failed _ _ => cases working
  | keystreamPanicked _ _ _ _ _ _ => cases working
  | _ => rfl

/-- A task that removes its file has asked for a retry. -/
theorem asks_of_removing (move : task.Move crates shared action shared' task')
    (removes : Phase.isRemoving task'.phase = true) :
    0 < shared'.messages.countP (asks task.id) := by
  cases move with
  | notified phase open_ =>
      refine List.countP_pos_iff.mpr ⟨.failure task.id 0 none, List.mem_append_right _ ?_, ?_⟩
      · exact List.mem_singleton_self _
      · simp [asks]
  | popped phase =>
      cases signature : task.details.signature <;> rw [signature] at removes <;> cases removes
  | _ => cases removes

/-- A task that has failed touches the disk only to remove its file. -/
theorem failed_move (move : task.Move crates shared action shared' task')
    (failed : Phase.isKept task.phase = false) :
    (task.phase = .removing ∧ ((∃ passed error, action = .fail passed error) ∨
      shared'.disk.entries task.details.partialPath = none)) ∨
    (Phase.isRemoving task.phase = false ∧ shared'.disk = shared.disk) := by
  have at_ : ∀ {phase : Phase}, task.phase = phase → Phase.isKept phase = false := by
    rintro _ rfl
    exact failed
  cases move with
  | opened phase _ => cases at_ phase
  | seeked phase _ _ => cases at_ phase
  | subscribed phase _ => cases at_ phase
  | received phase _ _ _ _ => cases at_ phase
  | flushed phase _ => cases at_ phase
  | popped phase => cases at_ phase
  | verified phase _ _ => cases at_ phase
  | mismatched phase _ _ => cases at_ phase
  | notified phase _ => cases at_ phase
  | removed phase removed =>
      exact .inl ⟨phase, .inr (FileSystem.entries_remove removed)⟩
  | unremoved phase => exact .inl ⟨phase, .inl ⟨_, _, rfl⟩⟩
  | moved phase _ => cases at_ phase
  | ended phase _ => cases at_ phase
  | reported phase _ => exact .inr ⟨by rw [phase]; rfl, rfl⟩
  | keyPanicked phase _ => cases at_ phase
  | seekPanicked phase _ _ => cases at_ phase
  | keystreamPanicked phase _ _ _ _ _ => cases at_ phase
  | sendPanicked phase _ => exact .inr ⟨by rw [phase]; rfl, rfl⟩
  | writeFailed phase _ _ => cases at_ phase
  | failed error phase =>
      rcases phase with phase | ⟨_, phase⟩ | ⟨_, _, phase⟩ | ⟨_, phase⟩ | phase | phase | phase <;>
        cases at_ phase

/-! ### Steps of the sender -/

/-- The sender starts an id once of its own accord, and again only when asked. -/
theorem tokens_sender (move : SenderMove cfg s s') (id : UInt32) :
    (id ∈ s'.sender.files → id ∈ s.sender.files) ∧
    ((∀ phases, tokens phases (asks id) id s' ≤ tokens phases (asks id) id s) ∨
      id ∈ s.sender.files ∧ id ∉ s'.sender.files ∧
        ∀ phases, tokens phases (asks id) id s' = tokens phases (asks id) id s + 1) := by
  cases move with
  | completed pc inbox =>
      refine ⟨fun mem => ?_, .inl fun _ => Nat.le_refl _⟩
      exact (mem_foldl_erase.mp mem).1
  | @start details pc found =>
      refine ⟨fun mem => (AList.mem_erase.mp mem).2, ?_⟩
      have told : ∀ phases, tokens phases (asks id) id
          (s.senderSays (.starting s.sender.nextId details) (.message (.start s.sender.nextId))) =
          tokens phases (asks id) id s + if s.sender.nextId = id then 1 else 0 := by
        intro phases
        rw [tokens_senderSays]
        simp only [Packet.starts, decide_eq_true_eq]
      rcases eq_or_ne s.sender.nextId id with rfl | differs
      · refine .inr ⟨AList.lookup_isSome.mp (by rw [found]; rfl),
          fun mem => (AList.mem_erase.mp mem).1 rfl, fun phases => ?_⟩
        rw [tokens_setSender, told, if_pos rfl]
      · refine .inl fun phases => ?_
        rw [tokens_setSender, told, if_neg differs]
        exact Nat.le_refl _
  | @told message rest pc inbox settles =>
      refine ⟨fun mem => mem, .inl fun phases => ?_⟩
      rw [tokens_setSender, ← tokens_setMessages inbox]
      exact Nat.le_add_right _ _
  | @retry other details description rest pc inbox found =>
      refine ⟨fun mem => mem, .inl fun phases => ?_⟩
      rw [← tokens_setMessages inbox, tokens_senderSays]
      simp [Packet.starts, asks]
  | stopped waits later =>
      refine ⟨fun mem => mem, .inl fun phases => ?_⟩
      have fewer := later.sublist.countP_le (p := asks id)
      simp only [tokens, State.setToSender, State.setMessages, State.setSender, State.setChan,
        State.setShared]
      omega
  | _ =>
      refine ⟨fun mem => mem, .inl fun phases => ?_⟩
      simp [tokens, State.senderSays, State.setToSender, State.setSender, State.setChan,
        List.countP_append, Packet.starts]

/-! ## Attempts after the first -/

/-- What holds of an id whose partial files are removed first. -/
structure Restarting (id : UInt32) (s : State Fifo) : Prop where
  single : tokens Phase.isKept (asks id) id s ≤ 1
  unstarted : id ∈ s.sender.files → tokens (fun _ => true) (asks id) id s = 0
  gone : ∀ details, s.receiver.files.lookup id = some details →
    (∃ task ∈ s.tasks, task.id = id ∧ Phase.isOpening task.phase = false) →
    0 < tokens Phase.isOpening (asks id) id s →
    removing id s = true ∨ s.shared.disk.entries details.partialPath = none
  settled : (∃ task ∈ s.tasks, task.id = id ∧ Phase.isWorking task.phase = true) →
    removing id s = false
  zero : ∀ details, s.receiver.pc.hand = some details → details.id = id →
    (∃ task ∈ s.tasks, task.id = id) → details.startIndex = 0

theorem restarting_init (start : (ideal cfg).init s) : Restarting id s := by
  obtain ⟨disk, chan, rfl, rfl⟩ := start
  exact ⟨Nat.zero_le _, fun _ => rfl, nofun, nofun, nofun⟩

theorem restarting_sender (restarting : Restarting id s) (move : SenderMove cfg s s') :
    Restarting id s' := by
  obtain ⟨single, unstarted, gone, settled, zero⟩ := restarting
  obtain ⟨tasks, receiver, disk⟩ := move.frame
  obtain ⟨kept, counts⟩ := tokens_sender move id
  have removingEq : removing id s' = removing id s := by rw [removing, tasks, removing]
  rw [← tasks] at gone settled zero
  rw [← receiver] at gone zero
  rw [← disk, ← removingEq] at gone
  rw [← removingEq] at settled
  rcases counts with fewer | ⟨mem, erased, more⟩
  · exact ⟨(fewer _).trans single,
      fun mem => Nat.le_zero.mp ((fewer _).trans (unstarted (kept mem)).le),
      fun details found other waits => gone details found other (waits.trans_le (fewer _)),
      settled, zero⟩
  · -- the first attempt of the id
    have none_ := unstarted mem
    have untried : ∀ task ∈ s'.tasks, task.id ≠ id := by
      rw [tasks]
      intro task mem own
      simp only [tokens, Nat.add_eq_zero_iff, List.countP_eq_zero] at none_
      exact none_.1.2 task mem (by simp [own])
    refine ⟨?_, fun mem => absurd mem erased, ?_, settled, zero⟩
    · have fewer : tokens Phase.isKept (asks id) id s ≤ tokens (fun _ => true) (asks id) id s :=
        tokens_mono fun _ _ => rfl
      rw [more]
      omega
    · rintro details - ⟨task, mem, own, -⟩
      exact absurd own (untried task mem)

/-! ### Steps of the receiver -/

/-- Before a retry is opened, no attempt of its id is about to be opened. -/
theorem opened_of_pending (single : tokens Phase.isKept (asks id) id s ≤ 1)
    (pending : 0 < s.chan.toReceiver.countP (Packet.starts id)) (mem : task ∈ s.tasks)
    (own : task.id = id) : Phase.isOpening task.phase = false := by
  rw [← Bool.not_eq_true]
  intro opening
  have here : 0 < s.tasks.countP
      (fun task => decide (task.id = id) && Phase.isKept task.phase) := by
    refine List.countP_pos_iff.mpr ⟨task, mem, ?_⟩
    rw [decide_eq_true own, Phase.isKept, opening]
    rfl
  unfold tokens at single
  omega

/-- Where the receiver starts an id again, it starts it at 0. -/
theorem Restarting.restarts (restarting : Restarting id s)
    {details : FileDetails} {rest : List Packet} (pc : s.receiver.pc = .waiting)
    (inbox : s.chan.toReceiver = .message (.start id) :: rest)
    (known : s.receiver.files.lookup id = some details)
    (first : (asksForFile id s && removing id s) = false)
    (again : ∃ task ∈ s.tasks, task.id = id) :
    (restarted s.shared.disk details).startIndex = 0 := by
  have pending : 0 < s.chan.toReceiver.countP (Packet.starts id) := by
    rw [inbox]
    exact List.countP_pos_iff.mpr ⟨_, List.mem_cons_self, decide_eq_true rfl⟩
  have waits : 0 < tokens Phase.isOpening (asks id) id s := by
    unfold tokens
    omega
  obtain ⟨task, mem, own⟩ := again
  have gone := restarting.gone details known
    ⟨task, mem, own, opened_of_pending restarting.single pending mem own⟩ waits
  unfold restarted
  split
  next => rfl
  next kept =>
    by_contra nonzero
    have positive : details.startIndex > 0 := UInt64.pos_iff_ne_zero.mpr nonzero
    rcases gone with removes | none_
    · have asks : asksForFile id s = true := by
        rw [asksForFile, pc, inbox]
        simp [known, positive]
      rw [asks, removes] at first
      cases first
    · exact kept ⟨positive, FileSystem.exists_eq_false.mpr none_⟩

/-- The receiver goes on with the same attempts. -/
theorem Restarting.walk (restarting : Restarting id s) (tasks : s'.tasks = s.tasks)
    (disk : s'.shared.disk = s.shared.disk) (sender : s'.sender = s.sender)
    (files : s'.receiver.files = s.receiver.files)
    (hand : ∀ details, s'.receiver.pc.hand = some details → s.receiver.pc.hand = some details)
    (counts : ∀ phases, phases .opening = true →
      tokens phases (asks id) id s' = tokens phases (asks id) id s) : Restarting id s' := by
  obtain ⟨single, unstarted, gone, settled, zero⟩ := restarting
  have removingEq : removing id s' = removing id s := by rw [removing, tasks, removing]
  refine ⟨?_, ?_, ?_, ?_, ?_⟩
  · rwa [counts _ rfl]
  · rwa [counts _ rfl, sender]
  · rwa [counts _ rfl, files, tasks, disk, removingEq]
  · rwa [tasks, removingEq]
  · rw [tasks]
    exact fun details here => zero details (hand details here)

theorem removing_append {details : FileDetails} {receiver : Receiver} :
    removing id { s with receiver := receiver, tasks := s.tasks ++ [⟨details, .opening⟩] } =
      removing id s := by
  simp [removing, Phase.isRemoving]

theorem restarting_receiver (agreed : Agreed cfg s) (listed : Listed s)
    (restarting : Restarting id s) (first : (asksForFile id s && removing id s) = false)
    (move : ReceiverMove cfg s s') : Restarting id s' := by
  have counts : ∀ phases, phases .opening = true →
      tokens phases (asks id) id s' = tokens phases (asks id) id s :=
    fun phases opening => tokens_receiver opening agreed move
  have same := move.sender_eq
  have untried : s'.tasks = [] → Restarting id s' := by
    intro none_
    obtain ⟨single, unstarted, -, -, -⟩ := restarting
    refine ⟨by rwa [counts _ rfl], by rwa [counts _ rfl, same], ?_, ?_, ?_⟩ <;> rw [none_]
    all_goals exact nofun
  cases move with
  | manifest pc inbox => exact restarting.walk rfl rfl rfl rfl nofun counts
  | nothing pc inbox => exact restarting.walk rfl rfl rfl rfl nofun counts
  | completed pc prepared => exact untried (listed.early (by rw [pc]; trivial))
  | noSpace pc => exact restarting.walk rfl rfl rfl rfl nofun counts
  | setUp pc created => exact untried (listed.early (by rw [pc]; trivial))
  | @start other details rest pc inbox known =>
      obtain ⟨named, partialPath, -⟩ := restarted_eq s.shared.disk details
      have own := agreed.named other details known
      refine ⟨?_, ?_, ?_, restarting.settled, ?_⟩
      · rw [counts _ rfl]
        exact restarting.single
      · rw [counts _ rfl]
        exact restarting.unstarted
      · intro found look
        rw [counts _ rfl]
        rcases lookup_insert_cases look with ⟨rfl, rfl⟩ | look
        · rw [partialPath]
          exact restarting.gone details known
        · exact restarting.gone found look
      · intro found here own' again
        cases here
        rw [named, own] at own'
        subst own'
        exact restarting.restarts pc inbox known first again
  | unknown pc inbox unknown => exact restarting.walk rfl rfl rfl rfl (fun _ here => here) counts
  | done pc inbox last => exact restarting.walk rfl rfl rfl rfl nofun counts
  | reply pc =>
      refine restarting.walk rfl rfl rfl rfl (fun _ here => ?_) counts
      rw [pc]
      exact here
  | push pc =>
      refine restarting.walk rfl rfl rfl rfl (fun _ here => ?_) counts
      rw [pc]
      exact here
  | @spawn details pc =>
      have older : ∀ {task : WriterTask}, task ∈ s.tasks ++ [⟨details, .opening⟩] →
          Phase.isOpening task.phase = false ∨ Phase.isWorking task.phase = true →
          task ∈ s.tasks := by
        intro task mem opened
        refine (List.mem_append.mp mem).resolve_right fun new => ?_
        cases List.mem_singleton.mp new
        rcases opened with absurd_ | absurd_ <;> cases absurd_
      refine ⟨?_, ?_, ?_, ?_, nofun⟩
      · rw [counts _ rfl]
        exact restarting.single
      · rw [counts _ rfl]
        exact restarting.unstarted
      · rintro found look ⟨task, mem, own, opened⟩
        rw [counts _ rfl, removing_append]
        exact restarting.gone found look ⟨task, older mem (.inl opened), own, opened⟩
      · rintro ⟨task, mem, own, working⟩
        rw [removing_append]
        exact restarting.settled ⟨task, older mem (.inr working), own, working⟩
  | unprepared pc => exact restarting.walk rfl rfl rfl rfl nofun counts
  | stopped reads inbox unexpected => exact restarting.walk rfl rfl rfl rfl nofun counts

/-! ### Steps of the tasks -/

theorem keepsApart_iff {files : HashMap UInt32 FileDetails} (apart : keepsApart id files = true)
    {details other : FileDetails} {id' : UInt32} (look : files.lookup id = some details)
    (look' : files.lookup id' = some other) (differs : id' ≠ id) :
    details.partialPath ≠ other.partialPath ∧ details.partialPath ≠ other.path := by
  rw [keepsApart, look] at apart
  have mem := AList.mem_lookup_iff.mp (Option.mem_def.mpr look')
  have here := of_decide_eq_true (List.all_eq_true.mp apart ⟨id', other⟩ mem)
  exact here.resolve_left differs

/-- A task that is not the stepping one stays. -/
theorem mem_set_of_ne {tasks : List WriterTask} {index : Nat} {other : WriterTask}
    (here : tasks[index]? = some task) (mem : other ∈ tasks) (differs : other ≠ task) :
    other ∈ tasks.set index task' := by
  obtain ⟨place, there⟩ := List.mem_iff_getElem?.mp mem
  have apart : index ≠ place := by
    rintro rfl
    exact differs (Option.some.inj (there.symm.trans here))
  exact List.mem_of_getElem? ((List.getElem?_set_ne apart).trans there)

/-- While a partial file is to be removed, no task of `id` is at work. -/
theorem Restarting.idle (restarting : Restarting id s) (before : removing id s = true)
    (mem : task ∈ s.tasks) (own : task.id = id) : Phase.isWorking task.phase = false := by
  rw [← Bool.not_eq_true]
  intro working
  exact Bool.false_ne_true ((restarting.settled ⟨task, mem, own, working⟩).symm.trans before)

theorem removing_of_set {index : Nat} (here : s.tasks[index]? = some task)
    (still : removing id s = true)
    (not_ : task.id ≠ id ∨ Phase.isRemoving task.phase = false) :
    removing id { s with shared := shared', tasks := s.tasks.set index task' } = true := by
  obtain ⟨other, mem, removes⟩ := List.any_eq_true.mp still
  refine List.any_eq_true.mpr ⟨other, mem_set_of_ne here mem ?_, removes⟩
  rintro rfl
  obtain ⟨own, phase⟩ := Bool.and_eq_true_iff.mp removes
  rcases not_ with other | not_
  · exact other (of_decide_eq_true own)
  · rw [not_] at phase
    cases phase

theorem restarting_task {index : Nat} (listed : Listed s) (restarting : Restarting id s)
    (here : s.tasks[index]? = some task)
    (move : task.Move cfg.crates s.shared action shared' task')
    (first : removesFirst id s (.task index action) = true) :
    Restarting id { s with shared := shared', tasks := s.tasks.set index task' } := by
  have mem := List.mem_of_getElem? here
  have named : task'.id = task.id := congrArg FileDetails.id move.details_eq
  have keptCount := @tokens_task s Phase.isKept (asks id) id index task task' shared' here
  have allCount := @tokens_task s (fun _ => true) (asks id) id index task task' shared' here
  have openingCount := @tokens_task s Phase.isOpening (asks id) id index task task' shared' here
  have keptLe := @keptTokens_move id _ _ _ _ _ _ move
  have idle := fun before task => @Restarting.idle _ _ task restarting before
  obtain ⟨single, unstarted, gone, settled, zero⟩ := restarting
  have unstarted' : id ∈ s.sender.files → tokens (fun _ => true) (asks id) id
      { s with shared := shared', tasks := s.tasks.set index task' } = 0 := by
    intro listed
    have none_ := unstarted listed
    have other : task.id ≠ id := by
      intro own
      simp only [tokens, Nat.add_eq_zero_iff, List.countP_eq_zero] at none_
      exact none_.1.2 task mem (by simp [own])
    rw [stationTokens_other move other, none_] at allCount
    omega
  have zero' : ∀ details, s.receiver.pc.hand = some details → details.id = id →
      (∃ task ∈ s.tasks.set index task', task.id = id) → details.startIndex = 0 := by
    rintro details hand own ⟨other, mem', own'⟩
    rcases List.mem_or_eq_of_mem_set mem' with mem' | rfl
    · exact zero details hand own ⟨other, mem', own'⟩
    · exact zero details hand own ⟨task, mem, named ▸ own'⟩
  have single' : tokens Phase.isKept (asks id) id
      { s with shared := shared', tasks := s.tasks.set index task' } ≤ 1 := by omega
  have openingLe : tokens Phase.isOpening (asks id) id s ≤ tokens Phase.isKept (asks id) id s :=
    tokens_mono fun phase opening => by rw [Phase.isKept, opening]; rfl
  have inSet : task' ∈ s.tasks.set index task' :=
    List.mem_set (List.getElem?_eq_some_iff.mp here).1 task'
  obtain ⟨apart, first⟩ := Bool.and_eq_true_iff.mp first
  simp only [here] at first
  refine ⟨single', unstarted', ?_, ?_, zero'⟩
  · rintro details look ⟨other, mem', own', opened⟩ waits
    by_cases own : task.id = id
    · rcases @openingTokens_move id _ _ _ _ _ _ move with phase | same
      · refine .inl (List.any_eq_true.mpr ⟨task', inSet, ?_⟩)
        rw [named, decide_eq_true own, phase]
        rfl
      · rw [same, stationTokens] at openingCount
        have opened : Phase.isOpening task.phase = false := by
          rw [← Bool.not_eq_true]
          intro opening
          rw [if_pos ⟨own, opening⟩] at openingCount
          omega
        rw [if_neg fun both => Bool.false_ne_true (opened.symm.trans both.2)] at openingCount
        have waits : 0 < tokens Phase.isOpening (asks id) id s := by omega
        have failed := not_kept_of_waiting single waits mem own opened
        rcases failed_move move failed with ⟨phase, ⟨_, _, rfl⟩ | none_⟩ | ⟨not_, same⟩
        · rw [phase, decide_eq_false (not_not.mpr own)] at first
          cases first
        · obtain ⟨found, look', partialPath, -⟩ := listed.tasks task mem
          rw [own, look] at look'
          cases look'
          rw [partialPath]
          exact .inr none_
        · rw [same]
          exact (gone details look ⟨task, mem, own, opened⟩ waits).imp_left fun still =>
            removing_of_set here still (.inr not_)
    · rw [stationTokens_other move own] at openingCount
      have older : other ∈ s.tasks := by
        apply (List.mem_or_eq_of_mem_set mem').resolve_right
        rintro rfl
        exact own (named.symm.trans own')
      have waits : 0 < tokens Phase.isOpening (asks id) id s := by omega
      refine (gone details look ⟨other, older, own', opened⟩ waits).imp
        (fun still => removing_of_set here still (.inl own)) fun none_ => ?_
      obtain ⟨found, look', partialPath, path⟩ := listed.tasks task mem
      obtain ⟨apart, apart'⟩ := keepsApart_iff apart look look' own
      rw [partialPath] at apart
      rw [path] at apart'
      exact (move.entries_eq apart apart').trans none_
  · rintro ⟨other, mem', own', working⟩
    rw [← Bool.not_eq_true]
    intro still
    obtain ⟨last, lastMem, removes⟩ := List.any_eq_true.mp still
    obtain ⟨lastOwn, removes⟩ := Bool.and_eq_true_iff.mp removes
    have lastOwn : last.id = id := of_decide_eq_true lastOwn
    rcases List.mem_or_eq_of_mem_set lastMem with lastMem | rfl
    · have before : removing id s = true :=
        List.any_eq_true.mpr ⟨last, lastMem, by rw [decide_eq_true lastOwn, removes]; rfl⟩
      have idle := idle before
      rcases List.mem_or_eq_of_mem_set mem' with mem' | rfl
      · exact Bool.false_ne_true ((idle other mem' own').symm.trans working)
      · have own : task.id = id := named ▸ own'
        have kept := kept_move move (by rw [Phase.isKept, working, Bool.or_true])
        rw [Phase.isKept, idle task mem own, Bool.or_false] at kept
        have opening : task.phase = .opening := by
          cases phase : task.phase <;> rw [phase] at kept <;> first | rfl | cases kept
        obtain rfl := proceed_of_opening move opening working
        rw [opening, decide_eq_false (not_not.mpr own), before] at first
        cases first
    · -- the stepping task has just asked for a retry
      have asked := asks_of_removing move removes
      rw [← named, lastOwn] at asked
      have idle := opening_of_working single' mem' own' working
      unfold tokens at idle
      dsimp only at idle
      omega

/-! ### Runs -/

theorem restarting_move {action : Action} (agreed : Agreed cfg s) (listed : Listed s)
    (restarting : Restarting id s) (first : removesFirst id s action = true)
    (move : Move cfg s action s') : Restarting id s' := by
  cases move with
  | sender alive move => exact restarting_sender restarting move
  | receiver alive move =>
      obtain ⟨-, first⟩ := Bool.and_eq_true_iff.mp first
      exact restarting_receiver agreed listed restarting (Bool.not_eq_true' _ ▸ first) move
  | task alive here move => exact restarting_task listed restarting here move first
  | senderExit =>
      obtain ⟨single, unstarted, gone, settled, zero⟩ := restarting
      exact ⟨single, unstarted, gone, settled, zero⟩
  | receiverExit =>
      obtain ⟨single, unstarted, gone, settled, zero⟩ := restarting
      exact ⟨single, unstarted, gone, settled, zero⟩

theorem restarting_reached
    (reached : (ideal cfg).ReachableVia (fun s action => removesFirst id s action = true) s) :
    Restarting id s :=
  reached.invariant (fun _ start => restarting_init start)
    fun _ _ _ before restarting first next =>
      restarting_move (agreed_reached before.reachable) (listed_reached before.reachable)
        restarting first (step_cases next)

/-- A retry opens an empty file. -/
theorem Restarting.opens (listed : Listed s) (restarting : Restarting id s) {j : Nat}
    (here : s.tasks[j]? = some task) (own : task.id = id) (phase : task.phase = .opening)
    (gone : removing id s = false) {i : Nat} {older : WriterTask} (apart : i ≠ j)
    (there : s.tasks[i]? = some older) (own' : older.id = id) :
    s.shared.disk.entries task.details.partialPath = none := by
  have mem := List.mem_of_getElem? here
  have kept : Phase.isKept task.phase = true := by
    rw [phase]
    rfl
  have failed := not_kept_of_kept restarting.single apart there own' here own kept
  have opened : Phase.isOpening older.phase = false := (Bool.or_eq_false_iff.mp failed).1
  have waits : 0 < tokens Phase.isOpening (asks id) id s := by
    have counted : 0 < s.tasks.countP
        (fun task => decide (task.id = id) && Phase.isOpening task.phase) :=
      List.countP_pos_iff.mpr ⟨task, mem, by rw [decide_eq_true own, phase]; rfl⟩
    unfold tokens
    omega
  obtain ⟨details, look, partialPath, -⟩ := listed.tasks task mem
  rw [own] at look
  rw [← partialPath]
  refine (restarting.gone details look ⟨older, List.mem_of_getElem? there, own', opened⟩
    waits).resolve_left ?_
  rw [gone]
  exact Bool.false_ne_true

/-- While a task of an id is at work, the older ones leave the disk alone. -/
theorem Restarting.untouched (restarting : Restarting id s) {i j : Nat} {other : WriterTask}
    (here : s.tasks[i]? = some task) (own : task.id = id) (apart : i ≠ j)
    (there : s.tasks[j]? = some other) (own' : other.id = id)
    (working : Phase.isWorking other.phase = true)
    (move : task.Move crates s.shared action shared' task') :
    shared'.disk = s.shared.disk := by
  have failed := not_kept_of_kept restarting.single apart here own there own'
    (by rw [Phase.isKept, working, Bool.or_true])
  rcases failed_move move failed with ⟨phase, -⟩ | ⟨-, same⟩
  · have gone := restarting.settled ⟨other, List.mem_of_getElem? there, own', working⟩
    have removes : removing id s = true :=
      List.any_eq_true.mpr ⟨task, List.mem_of_getElem? here, by
        rw [decide_eq_true own, phase]
        rfl⟩
    exact absurd (gone.symm.trans removes) Bool.false_ne_true
  · exact same

/-- **Retries.**  In every run in which the removal of the partial file of `id` succeeds and
comes first, a retry of `id` starts at 0, with an empty file that only its own task
touches. -/
theorem retries_clean {action : Action}
    (reached : (ideal cfg).ReachableVia (fun s action => removesFirst id s action = true) s)
    (first : removesFirst id s action = true) (next : (ideal cfg).step s action = some s') :
    CleanStep id s action s' := by
  have listed := listed_reached reached.reachable
  have restarting := restarting_reached reached
  have move := step_cases next
  refine ⟨?_, ?_, ?_⟩
  · intro details pc own again
    exact restarting.zero details (by rw [pc]; rfl) own again
  · rintro j choice task task' file rfl here own phase ⟨i, older, apart, there, own'⟩ here' phase'
    obtain ⟨-, first⟩ := Bool.and_eq_true_iff.mp first
    cases move with
    | task alive here'' move =>
        cases here.symm.trans here''
        have bound := (List.getElem?_eq_some_iff.mp here).1
        cases (List.getElem?_set_self bound).symm.trans here'
        obtain rfl := proceed_of_opening move phase (by rw [phase']; rfl)
        simp only [here, phase, decide_eq_false (not_not.mpr own), Bool.false_or,
          Bool.not_eq_true'] at first
        have none_ := restarting.opens listed here own phase first apart there own'
        cases move with
        | opened _ opened =>
            cases phase'
            exact FileSystem.contents_openAppend_new none_ opened
        | popped _ =>
            cases signature : task.details.signature <;> rw [signature] at phase' <;> cases phase'
        | _ => cases phase'
  · rintro i j choice task other rfl here own apart there own' working
    cases move with
    | task alive here' move =>
        cases here.symm.trans here'
        exact restarting.untouched here own apart there own' working move

/-! ## Runs of one empty file -/

/-- The sender reads `Failure(0)` and the receiver spawns the second attempt. -/
def startedAgain : List Action :=
  [.sender, .sender, .receiver true, .receiver true, .receiver true, .receiver true]

def secondSpawned (s : State Fifo) : Bool :=
  decide (s.tasks.length = 2) && removesFirst 0 s (.task 1 .proceed) &&
    (step emptyFile fifo s (.task 1 .proceed)).isSome

/-- The leftover is removed before the sender hears of the failed check. -/
theorem retries_clean_leftover : ∃ s s', s.tasks.length = 2 ∧
    (ideal emptyFile).step s (.task 1 .proceed) = some s' ∧
    CleanStep 0 s (.task 1 .proceed) s' := by
  have start : (ideal emptyFile).init (initial emptyFile leftoverDisk ⟨[], []⟩) :=
    ⟨leftoverDisk, _, rfl, rfl⟩
  obtain ⟨s, reached, spawned⟩ := Machine.reachableVia_of_test start
    (startedOnce ++ List.replicate 8 (.task 0 .proceed) ++ startedAgain)
    (removesFirst 0) secondSpawned (by decide +kernel)
  simp only [secondSpawned, Bool.and_eq_true, decide_eq_true_eq] at spawned
  obtain ⟨⟨two, first⟩, enabled⟩ := spawned
  obtain ⟨s', next⟩ := Option.isSome_iff_exists.mp enabled
  have next : (ideal emptyFile).step s (.task 1 .proceed) = some s' := next
  exact ⟨s, s', two, next, retries_clean reached first next⟩

/-- The second task has opened a file that is not empty. -/
def openedLeftover (s : State Fifo) : Bool :=
  match s.tasks with
  | [_, ⟨_, .seeking file⟩] => decide (s.shared.disk.contents file ≠ [])
  | _ => false

/-- The second task is about to open a file that is not empty. -/
def opensLeftover (s : State Fifo) : Bool :=
  match s.tasks, step emptyFile fifo s (.task 1 .proceed) with
  | [older, ⟨details, .opening⟩], some s' =>
      decide (older.id = 0 ∧ details.id = 0) && openedLeftover s'
  | _, _ => false

/-- The sender hears of the failed check before the leftover is removed. -/
theorem retry_opens_leftover : ∃ s s', (ideal emptyFile).Reachable s ∧
    (ideal emptyFile).step s (.task 1 .proceed) = some s' ∧
    ¬ CleanStep 0 s (.task 1 .proceed) s' := by
  have start : (ideal emptyFile).init (initial emptyFile leftoverDisk ⟨[], []⟩) :=
    ⟨leftoverDisk, _, rfl, rfl⟩
  obtain ⟨s, reached, spoiled⟩ := Machine.reachable_of_test start
    (startedOnce ++ List.replicate 7 (.task 0 .proceed) ++ startedAgain) opensLeftover
    (by decide +kernel)
  unfold opensLeftover at spoiled
  split at spoiled
  next older details s' tasks next =>
    obtain ⟨owned, spoiled⟩ := Bool.and_eq_true_iff.mp spoiled
    obtain ⟨own, own'⟩ := of_decide_eq_true owned
    unfold openedLeftover at spoiled
    split at spoiled
    next first details' file tasks' =>
      refine ⟨s, s', reached, next, fun clean => of_decide_eq_true spoiled ?_⟩
      exact clean.opens 1 .proceed ⟨details, .opening⟩ ⟨details', .seeking file⟩ file rfl
        (by rw [tasks]; rfl) own' rfl ⟨0, older, by decide, by rw [tasks]; rfl, own⟩
        (by rw [tasks']; rfl) rfl
    next => cases spoiled
  next => cases spoiled

end Control

end Cccp
