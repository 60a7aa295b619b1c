import Cccp.Control.Moves

/-!
# The handshake on the control stream

The control stream is half-duplex by convention only: whose turn it is follows from
the program counters of the two sides.  `Handshake` lists their combinations with
what is in flight, `Agreed` adds what the two sides agree on about the files, and
every step keeps both (`agreed_reached`).
-/

namespace Cccp

namespace Control

/-! ## Combinations of the two sides -/

/-- The receiver owes no reply and is past the manifest. -/
def ReceiverPc.Settled : ReceiverPc → Prop
  | .settingUp _ | .waiting | .pushing _ | .spawning _ => True
  | _ => False

/-- The id of the `Start` message the sender waits for a reply to. -/
def SenderPc.awaits : SenderPc → Option UInt32
  | .starting id _ | .retrying id _ => some id
  | _ => none

/-- The sender has not read the `Completed` message yet. -/
def SenderPc.Early : SenderPc → Prop
  | .building | .awaitingCompleted => True
  | _ => False

/-- The sender has read the `Completed` message and has not returned. -/
def SenderPc.Late : SenderPc → Prop
  | .building | .awaitingCompleted | .returned => False
  | _ => True

/-- The stages of a `Start` message and its reply. -/
def Exchange (id : UInt32) (receiver : ReceiverPc) (chan : Fifo) : Prop :=
  (receiver.Settled ∧ chan = ⟨[.message (.start id)], []⟩) ∨
    ((∃ details, receiver = .replying details ∧ details.id = id) ∧ chan = ⟨[], []⟩) ∨
    (receiver.Settled ∧ ∃ index, chan = ⟨[], [.startIndex index]⟩)

/-- The combinations of the two sides and the packets in flight. -/
def Handshake (manifest : Manifest) (sender : SenderPc) (receiver : ReceiverPc)
    (chan : Fifo) : Prop :=
  match sender with
  | .building => receiver = .awaitingManifest ∧ chan = ⟨[], []⟩
  | .awaitingCompleted =>
      (receiver = .awaitingManifest ∧ chan = ⟨[.message (.manifest manifest)], []⟩) ∨
        (receiver = .preparing manifest ∧ chan = ⟨[], []⟩) ∨
        (receiver.Settled ∧ ∃ ids, chan = ⟨[], [.message (.completed ids)]⟩) ∨
        (receiver = .returned ∧
          (chan = ⟨[], []⟩ ∨ chan = ⟨[], [.message (.failure 0 1 none)]⟩))
  | .allCompleted | .filling | .waiting | .finishing => receiver.Settled ∧ chan = ⟨[], []⟩
  | .starting id _ | .retrying id _ => Exchange id receiver chan
  | .returned =>
      (receiver = .awaitingManifest ∧ chan = ⟨[.message (.done 0)], []⟩) ∨
        (receiver.Settled ∧ (chan = ⟨[], []⟩ ∨
          ∃ reason, (reason = 1 ∨ reason = 2) ∧ chan = ⟨[.message (.done reason)], []⟩)) ∨
        (receiver = .returned ∧ chan = ⟨[], []⟩)

/-- What the two sides agree on. -/
structure Agreed (cfg : Config) (s : State Fifo) : Prop where
  handshake : Handshake cfg.manifest s.sender.pc s.receiver.pc s.chan
  named : ∀ id details, s.receiver.files.lookup id = some details → details.id = id
  early : s.sender.pc.Early → s.sender.files = cfg.manifest.files ∧ s.sender.active = ∅ ∧
    ∀ ids, s.chan.toSender = [.message (.completed ids)] →
      ∀ id, id ∈ s.receiver.files ↔ id ∈ cfg.manifest.files ∧ id ∉ ids
  late : s.sender.pc.Late →
    ∀ id, id ∈ s.receiver.files ↔ id ∈ cfg.manifest.files ∧ id ∉ s.sender.completed
  wanted : s.sender.pc.Late → ∀ id,
    id ∈ s.sender.files ∨ id ∈ s.sender.active ∨ s.sender.pc.awaits = some id →
      id ∈ s.receiver.files

variable {cfg : Config} {s s' : State Fifo}

theorem agreed_init (start : (ideal cfg).init s) : Agreed cfg s := by
  obtain ⟨disk, chan, rfl, rfl⟩ := start
  refine ⟨⟨rfl, rfl⟩, ?_, ?_, nofun, nofun⟩
  · intro id details found
    cases found
  · exact fun _ => ⟨rfl, rfl, nofun⟩

/-! ## Maps -/

theorem mem_foldl_erase {V : Type} {ids : List UInt32} {map : HashMap UInt32 V}
    {id : UInt32} :
    id ∈ ids.foldl (fun map id => map.erase id) map ↔ id ∈ map ∧ id ∉ ids := by
  induction ids generalizing map with
  | nil => simp
  | cons first rest ih =>
      rw [List.foldl_cons, ih, AList.mem_erase, List.mem_cons, not_or]
      tauto

theorem mem_of_mem_forget {message : Message} {active : HashMap UInt32 FileDetail}
    {id : UInt32} (mem : id ∈ forget message active) : id ∈ active := by
  cases message with
  | end_ ended => exact (AList.mem_erase.mp mem).2
  | failure failed reason description =>
      rw [forget] at mem
      split at mem
      next => exact (AList.mem_erase.mp mem).2
      next => exact mem
  | _ => exact mem

/-! ## Steps of the sender -/

theorem Sender.afterMessage_pc (sender : Sender) :
    sender.afterMessage.pc = .finishing ∨ sender.afterMessage.pc = .filling := by
  rw [afterMessage]
  cases sender.done
  · exact .inr rfl
  · exact .inl rfl

/-- Where the sender goes on without waiting for the receiver. -/
def SenderPc.Free : SenderPc → Prop
  | .allCompleted | .filling | .waiting | .finishing => True
  | _ => False

theorem SenderPc.Free.late {pc : SenderPc} (free : pc.Free) : pc.Late := by
  cases pc <;> trivial

theorem SenderPc.Free.handshake {pc : SenderPc} (free : pc.Free) {manifest : Manifest}
    {receiver : ReceiverPc} {chan : Fifo} :
    Handshake manifest pc receiver chan ↔ receiver.Settled ∧ chan = ⟨[], []⟩ := by
  cases pc <;> first | exact Iff.rfl | exact free.elim

theorem Sender.afterMessage_free (sender : Sender) : sender.afterMessage.pc.Free := by
  rcases sender.afterMessage_pc with pc | pc <;> rw [pc] <;> trivial

theorem SenderPc.Free.not_early {pc : SenderPc} (free : pc.Free) : ¬ pc.Early := by
  intro isEarly
  cases pc <;> first | exact free | exact isEarly

theorem SenderPc.Free.awaits {pc : SenderPc} (free : pc.Free) : pc.awaits = none := by
  cases pc <;> first | rfl | exact free.elim

/-- The sender goes on by itself, with nothing in flight. -/
theorem Agreed.free (agreed : Agreed cfg s) (now : s.sender.pc.Free)
    (messages : List Message) (sender : Sender) (later : sender.pc.Free)
    (completed : sender.completed = s.sender.completed)
    (wanted : ∀ id, id ∈ sender.files ∨ id ∈ sender.active →
      id ∈ s.sender.files ∨ id ∈ s.sender.active) :
    Agreed cfg ((s.setMessages messages).setSender sender) where
  handshake := later.handshake.mpr (now.handshake.mp agreed.handshake)
  named := agreed.named
  early isEarly := absurd isEarly later.not_early
  late _ id := by
    have known := agreed.late now.late id
    rwa [← completed] at known
  wanted _ id wants := by
    apply agreed.wanted now.late id
    have wants : id ∈ sender.files ∨ id ∈ sender.active ∨ sender.pc.awaits = some id := wants
    rw [later.awaits] at wants
    rcases wants with mem | mem | absurd_
    · exact (wanted id (.inl mem)).imp_right .inl
    · exact (wanted id (.inr mem)).imp_right .inl
    · cases absurd_

/-- The sender writes its last packet. -/
theorem Agreed.finish (agreed : Agreed cfg s) (now : s.sender.pc.Free) {reason : UInt32}
    (last : reason = 1 ∨ reason = 2) :
    Agreed cfg (s.senderSays .returned (.message (.done reason))) := by
  obtain ⟨settled, chan⟩ := now.handshake.mp agreed.handshake
  refine ⟨.inr (.inl ⟨settled, .inr ⟨reason, last, ?_⟩⟩), agreed.named, nofun, nofun, nofun⟩
  simp only [State.senderSays, State.setChan, chan, List.nil_append]

theorem SenderPc.eq_of_awaits {pc : SenderPc} {id : UInt32} (awaited : pc.awaits = some id) :
    (∃ details, pc = .starting id details) ∨ ∃ details, pc = .retrying id details := by
  cases pc <;> cases awaited
  · exact .inl ⟨_, rfl⟩
  · exact .inr ⟨_, rfl⟩

theorem exchange_of_awaits {pc : SenderPc} {id : UInt32} (awaited : pc.awaits = some id)
    {manifest : Manifest} {receiver : ReceiverPc} {chan : Fifo} :
    Handshake manifest pc receiver chan ↔ Exchange id receiver chan := by
  rcases SenderPc.eq_of_awaits awaited with ⟨details, rfl⟩ | ⟨details, rfl⟩ <;> exact Iff.rfl

theorem SenderPc.late_of_awaits {pc : SenderPc} {id : UInt32} (awaited : pc.awaits = some id) :
    pc.Late ∧ ¬ pc.Early := by
  rcases eq_of_awaits awaited with ⟨details, rfl⟩ | ⟨details, rfl⟩ <;> exact ⟨trivial, nofun⟩

/-- The sender writes a `Start` message. -/
theorem Agreed.ask (agreed : Agreed cfg s) (now : s.sender.pc.Free) {id : UInt32}
    {packet : Packet} (asks : packet = .message (.start id)) (messages : List Message)
    (sender : Sender) (awaited : sender.pc.awaits = some id)
    (completed : sender.completed = s.sender.completed)
    (wants : id ∈ s.sender.files ∨ id ∈ s.sender.active)
    (wanted : ∀ id, id ∈ sender.files ∨ id ∈ sender.active →
      id ∈ s.sender.files ∨ id ∈ s.sender.active) :
    Agreed cfg (((s.setMessages messages).senderSays sender.pc packet).setSender sender) := by
  obtain ⟨settled, chan⟩ := now.handshake.mp agreed.handshake
  have known : ∀ id, id ∈ s.sender.files ∨ id ∈ s.sender.active → id ∈ s.receiver.files :=
    fun id mem => agreed.wanted now.late id (mem.imp_right .inl)
  refine ⟨(exchange_of_awaits awaited).mpr (.inl ⟨settled, ?_⟩), agreed.named, ?_, ?_, ?_⟩
  · simp only [State.senderSays, State.setChan, State.setSender, State.setMessages,
      State.setShared, chan, List.nil_append, asks]
  · exact fun isEarly => absurd isEarly (SenderPc.late_of_awaits awaited).2
  · intro _ id
    have known := agreed.late now.late id
    rwa [← completed] at known
  · intro _ other wants'
    have wants' : other ∈ sender.files ∨ other ∈ sender.active ∨
      sender.pc.awaits = some other := wants'
    rw [awaited] at wants'
    rcases wants' with mem | mem | same
    · exact known other (wanted other (.inl mem))
    · exact known other (wanted other (.inr mem))
    · cases same
      exact known id wants

/-- The sender reads the reply to its `Start` message. -/
theorem Agreed.replied (agreed : Agreed cfg s) {id : UInt32}
    (awaited : s.sender.pc.awaits = some id) {packet : Packet} {rest : List Packet}
    (inbox : s.chan.toSender = packet :: rest) (sender : Sender) (later : sender.pc.Free)
    (completed : sender.completed = s.sender.completed)
    (wanted : ∀ other, other ∈ sender.files ∨ other ∈ sender.active →
      other ∈ s.sender.files ∨ other ∈ s.sender.active ∨ other = id) :
    Agreed cfg ((s.setToSender rest).setSender sender) := by
  obtain ⟨isLate, -⟩ := SenderPc.late_of_awaits awaited
  have settled : s.receiver.pc.Settled ∧ ∃ index, s.chan = ⟨[], [.startIndex index]⟩ := by
    rcases (exchange_of_awaits awaited).mp agreed.handshake with
      ⟨-, chan⟩ | ⟨-, chan⟩ | replied
    · rw [chan] at inbox
      cases inbox
    · rw [chan] at inbox
      cases inbox
    · exact replied
  obtain ⟨settled, index, chan⟩ := settled
  obtain rfl : rest = [] := by
    rw [chan] at inbox
    exact (List.cons.inj inbox).2.symm
  refine ⟨later.handshake.mpr ⟨settled, ?_⟩, agreed.named,
    fun isEarly => absurd isEarly later.not_early, ?_, ?_⟩
  · simp only [State.setToSender, State.setChan, State.setSender, chan]
  · intro _ id
    have known := agreed.late isLate id
    rwa [← completed] at known
  · intro _ other wants
    apply agreed.wanted isLate other
    have wants : other ∈ sender.files ∨ other ∈ sender.active ∨
      sender.pc.awaits = some other := wants
    rw [later.awaits] at wants
    have same : other = id → s.sender.pc.awaits = some other := fun same => same ▸ awaited
    rcases wants with mem | mem | absurd_
    · exact (wanted other (.inl mem)).imp_right (Or.imp_right same)
    · exact (wanted other (.inr mem)).imp_right (Or.imp_right same)
    · cases absurd_

/-- The sender reads the ids the receiver already has. -/
theorem Agreed.completed (agreed : Agreed cfg s) (pc : s.sender.pc = .awaitingCompleted)
    {ids : List UInt32} {rest : List Packet}
    (inbox : s.chan.toSender = .message (.completed ids) :: rest) :
    Agreed cfg ((s.setToSender rest).setSender (s.sender.complete ids)) := by
  obtain ⟨handshake, named, early, -, -⟩ := agreed
  rw [pc] at handshake early
  obtain ⟨files, active, known⟩ := early trivial
  have answered : s.receiver.pc.Settled ∧ s.chan = ⟨[], [.message (.completed ids)]⟩ := by
    rcases handshake with ⟨-, chan⟩ | ⟨-, chan⟩ | ⟨settled, ids', chan⟩ | ⟨-, chan | chan⟩ <;>
      rw [chan] at inbox <;> cases inbox
    exact ⟨settled, chan⟩
  obtain ⟨settled, chan⟩ := answered
  obtain rfl : rest = [] := by
    rw [chan] at inbox
    exact (List.cons.inj inbox).2.symm
  have free : (s.sender.complete ids).pc.Free := by
    rw [Sender.complete]
    split <;> trivial
  have agreedFiles := known ids (by rw [chan])
  refine ⟨free.handshake.mpr ⟨settled, ?_⟩, named,
    fun isEarly => absurd isEarly free.not_early, fun _ => agreedFiles, ?_⟩
  · simp only [State.setToSender, State.setChan, State.setSender, chan]
  · intro _ id wants
    have wants : id ∈ (s.sender.complete ids).files ∨ id ∈ s.sender.active ∨
      (s.sender.complete ids).pc.awaits = some id := wants
    rw [free.awaits, active] at wants
    rcases wants with mem | absurd_ | absurd_
    · rw [Sender.complete, files, mem_foldl_erase] at mem
      exact (agreedFiles id).mpr mem
    · exact absurd absurd_ (AList.notMem_empty id)
    · cases absurd_

/-- The two sides agree once the sender has returned. -/
theorem agreed_of_returned (sender : s.sender.pc = .returned)
    (handshake : Handshake cfg.manifest .returned s.receiver.pc s.chan)
    (named : ∀ id details, s.receiver.files.lookup id = some details → details.id = id) :
    Agreed cfg s where
  handshake := sender ▸ handshake
  named := named
  early isEarly := by
    rw [sender] at isEarly
    exact isEarly.elim
  late isLate := by
    rw [sender] at isLate
    exact isLate.elim
  wanted isLate := by
    rw [sender] at isLate
    exact isLate.elim

/-- The sender stops with an error. -/
theorem Handshake.stopped {manifest : Manifest} {sender : SenderPc} {receiver : ReceiverPc}
    {chan : Fifo} (handshake : Handshake manifest sender receiver chan) {packets : List Packet}
    (waits : chan.toSender = packets ∧ sender.Free ∨ ∃ packet, chan.toSender = packet :: packets) :
    Handshake manifest .returned receiver { chan with toSender := packets } := by
  have exchange : ∀ {id}, Exchange id receiver chan →
      (∃ packet, chan.toSender = packet :: packets) →
      Handshake manifest .returned receiver { chan with toSender := packets } := by
    rintro id (⟨-, rfl⟩ | ⟨-, rfl⟩ | ⟨settled, _, rfl⟩) ⟨packet, inbox⟩ <;> cases inbox
    exact .inr (.inl ⟨settled, .inl rfl⟩)
  rcases waits with ⟨rfl, free⟩ | inbox
  · exact .inr (.inl ((free.handshake.mp handshake).imp_right .inl))
  cases sender with
  | starting id details | retrying id details => exact exchange handshake inbox
  | awaitingCompleted =>
      obtain ⟨packet, inbox⟩ := inbox
      rcases handshake with ⟨-, rfl⟩ | ⟨-, rfl⟩ | ⟨settled, _, rfl⟩ | ⟨returned, rfl | rfl⟩ <;>
        cases inbox
      · exact .inr (.inl ⟨settled, .inl rfl⟩)
      · exact .inr (.inr ⟨returned, rfl⟩)
  | returned =>
      obtain ⟨packet, inbox⟩ := inbox
      rcases handshake with ⟨-, rfl⟩ | ⟨-, rfl | ⟨_, -, rfl⟩⟩ | ⟨-, rfl⟩ <;> cases inbox
  | _ =>
      obtain ⟨packet, inbox⟩ := inbox
      obtain ⟨-, rfl⟩ := handshake
      cases inbox

theorem agreed_sender (agreed : Agreed cfg s) (move : SenderMove cfg s s') :
    Agreed cfg s' := by
  cases move with
  | nothing pc empty =>
      obtain ⟨handshake, named, -, -, -⟩ := agreed
      rw [pc] at handshake
      obtain ⟨receiver, chan⟩ := handshake
      refine ⟨.inl ⟨receiver, ?_⟩, named, nofun, nofun, nofun⟩
      simp only [State.senderSays, State.setChan, chan, List.nil_append]
  | manifest pc =>
      obtain ⟨handshake, named, early, -, -⟩ := agreed
      rw [pc] at handshake early
      obtain ⟨receiver, chan⟩ := handshake
      obtain ⟨files, active, -⟩ := early trivial
      refine ⟨.inl ⟨receiver, ?_⟩, named, fun _ => ⟨files, active, ?_⟩, nofun, nofun⟩
      · simp only [State.senderSays, State.setChan, chan, List.nil_append]
      · intro ids inbox
        simp only [State.senderSays, State.setChan, chan] at inbox
        cases inbox
  | completed pc inbox => exact agreed.completed pc inbox
  | allCompleted pc => exact agreed.finish (pc ▸ trivial) (.inl rfl)
  | skip pc => exact agreed.free (pc ▸ trivial) s.shared.messages _ (pc ▸ trivial) rfl fun _ => id
  | @start details pc found =>
      refine agreed.ask (pc ▸ trivial) rfl s.shared.messages _ rfl rfl
        (.inl (AList.lookup_isSome.mp (by rw [found]; rfl))) ?_
      exact fun id => Or.imp_left fun mem => (AList.mem_erase.mp mem).2
  | full pc => exact agreed.free (pc ▸ trivial) s.shared.messages _ trivial rfl fun _ => id
  | @started id details index rest pc inbox =>
      refine agreed.replied (by rw [pc]; rfl) inbox _ trivial rfl ?_
      rintro other (mem | mem)
      · exact .inl mem
      · rcases (AList.mem_insert _).mp mem with same | mem
        · exact .inr (.inr same)
        · exact .inr (.inl mem)
  | told pc inbox settles =>
      refine agreed.free (pc ▸ trivial) _ _ (Sender.afterMessage_free _) rfl ?_
      exact fun id => Or.imp_right mem_of_mem_forget
  | @retry id details description rest pc inbox found =>
      refine agreed.ask (pc ▸ trivial) rfl rest (s.sender.goto (.retrying id details)) rfl rfl
        (.inr (AList.lookup_isSome.mp (by rw [found]; rfl))) fun _ mem => mem
  | @retried id details index rest pc inbox =>
      refine agreed.replied (by rw [pc]; rfl) inbox _ (Sender.afterMessage_free _) rfl ?_
      exact fun other => Or.imp_right .inl
  | finish pc => exact agreed.finish (pc ▸ trivial) (.inr rfl)
  | @stopped packets messages waits later =>
      refine agreed_of_returned rfl ?_ agreed.named
      have inFlight : (((s.setToSender packets).setMessages messages).setSender
          s.sender.stop).chan = { s.chan with toSender := packets } := rfl
      rw [inFlight]
      exact agreed.handshake.stopped (waits.imp_left (And.imp_right fun pc => by rw [pc]; trivial))

/-! ## Steps of the receiver -/

theorem mem_insert_of_mem {V : Type} {map : HashMap UInt32 V} {id other : UInt32} {value : V}
    (mem : id ∈ map) : other ∈ map.insert id value ↔ other ∈ map := by
  rw [AList.mem_insert]
  exact ⟨fun here => here.elim (fun same => same ▸ mem) fun mem => mem, .inr⟩

theorem Handshake.settled {manifest : Manifest} {sender : SenderPc}
    {receiver receiver' : ReceiverPc} {chan : Fifo}
    (handshake : Handshake manifest sender receiver chan) (before : receiver.Settled)
    (after : receiver'.Settled) : Handshake manifest sender receiver' chan := by
  have exchange : ∀ {id}, Exchange id receiver chan → Exchange id receiver' chan := by
    rintro id (⟨-, chan⟩ | ⟨⟨details, rfl, -⟩, -⟩ | ⟨-, replied⟩)
    · exact .inl ⟨after, chan⟩
    · exact before.elim
    · exact .inr (.inr ⟨after, replied⟩)
  cases sender with
  | building =>
      obtain ⟨rfl, -⟩ := handshake
      exact before.elim
  | awaitingCompleted =>
      rcases handshake with ⟨rfl, -⟩ | ⟨rfl, -⟩ | ⟨-, answered⟩ | ⟨rfl, -⟩
      · exact before.elim
      · exact before.elim
      · exact .inr (.inr (.inl ⟨after, answered⟩))
      · exact before.elim
  | starting id details | retrying id details => exact exchange handshake
  | returned =>
      rcases handshake with ⟨rfl, -⟩ | ⟨-, closing⟩ | ⟨rfl, -⟩
      · exact before.elim
      · exact .inr (.inl ⟨after, closing⟩)
      · exact before.elim
  | _ => exact ⟨after, handshake.2⟩

/-- The receiver goes on by itself. -/
theorem Agreed.settled (agreed : Agreed cfg s) {pc : ReceiverPc} (before : s.receiver.pc.Settled)
    (after : pc.Settled) (shared : Shared) (tasks : List WriterTask) :
    Agreed cfg { s with receiver := s.receiver.goto pc, shared := shared, tasks := tasks } where
  handshake := agreed.handshake.settled before after
  named := agreed.named
  early := agreed.early
  late := agreed.late
  wanted := agreed.wanted

theorem Handshake.of_awaitingManifest {manifest : Manifest} {sender : SenderPc} {chan : Fifo}
    (handshake : Handshake manifest sender .awaitingManifest chan) :
    (sender = .building ∧ chan = ⟨[], []⟩) ∨
      (sender = .awaitingCompleted ∧ chan = ⟨[.message (.manifest manifest)], []⟩) ∨
      (sender = .returned ∧ chan = ⟨[.message (.done 0)], []⟩) := by
  cases sender with
  | building => exact .inl ⟨rfl, handshake.2⟩
  | awaitingCompleted =>
      rcases handshake with ⟨-, chan⟩ | ⟨absurd_, -⟩ | ⟨absurd_, -⟩ | ⟨absurd_, -⟩
      · exact .inr (.inl ⟨rfl, chan⟩)
      all_goals cases absurd_
  | starting id details | retrying id details =>
      rcases handshake with ⟨absurd_, -⟩ | ⟨⟨_, absurd_, -⟩, -⟩ | ⟨absurd_, -⟩ <;> cases absurd_
  | returned =>
      rcases handshake with ⟨-, chan⟩ | ⟨absurd_, -⟩ | ⟨absurd_, -⟩
      · exact .inr (.inr ⟨rfl, chan⟩)
      all_goals cases absurd_
  | _ => exact handshake.1.elim

theorem Handshake.of_preparing {manifest manifest' : Manifest} {sender : SenderPc}
    {chan : Fifo} (handshake : Handshake manifest sender (.preparing manifest') chan) :
    sender = .awaitingCompleted ∧ manifest' = manifest ∧ chan = ⟨[], []⟩ := by
  cases sender with
  | building => cases handshake.1
  | awaitingCompleted =>
      rcases handshake with ⟨absurd_, -⟩ | ⟨same, chan⟩ | ⟨absurd_, -⟩ | ⟨absurd_, -⟩
      · cases absurd_
      · exact ⟨rfl, ReceiverPc.preparing.inj same, chan⟩
      all_goals cases absurd_
  | starting id details | retrying id details =>
      rcases handshake with ⟨absurd_, -⟩ | ⟨⟨_, absurd_, -⟩, -⟩ | ⟨absurd_, -⟩ <;> cases absurd_
  | returned =>
      rcases handshake with ⟨absurd_, -⟩ | ⟨absurd_, -⟩ | ⟨absurd_, -⟩ <;> cases absurd_
  | _ => exact handshake.1.elim

theorem Handshake.of_replying {manifest : Manifest} {sender : SenderPc}
    {details : FileDetails} {chan : Fifo}
    (handshake : Handshake manifest sender (.replying details) chan) :
    sender.awaits = some details.id ∧ chan = ⟨[], []⟩ := by
  cases sender with
  | building => cases handshake.1
  | awaitingCompleted =>
      rcases handshake with ⟨absurd_, -⟩ | ⟨absurd_, -⟩ | ⟨absurd_, -⟩ | ⟨absurd_, -⟩ <;>
        cases absurd_
  | starting id details | retrying id details =>
      rcases handshake with ⟨absurd_, -⟩ | ⟨⟨_, same, rfl⟩, chan⟩ | ⟨absurd_, -⟩
      · cases absurd_
      · cases same
        exact ⟨rfl, chan⟩
      · cases absurd_
  | returned =>
      rcases handshake with ⟨absurd_, -⟩ | ⟨absurd_, -⟩ | ⟨absurd_, -⟩ <;> cases absurd_
  | _ => exact handshake.1.elim

/-- What a receiver that has read the manifest finds on the stream. -/
theorem Handshake.inbox {manifest : Manifest} {sender : SenderPc} {receiver : ReceiverPc}
    {chan : Fifo} (handshake : Handshake manifest sender receiver chan)
    (settled : receiver.Settled) {packet : Packet} {rest : List Packet}
    (inbox : chan.toReceiver = packet :: rest) :
    rest = [] ∧ chan.toSender = [] ∧
      ((∃ id, packet = .message (.start id) ∧ sender.awaits = some id) ∨
        ∃ reason, (reason = 1 ∨ reason = 2) ∧ packet = .message (.done reason) ∧
          sender = .returned) := by
  have exchange : ∀ id, Exchange id receiver chan →
      rest = [] ∧ chan.toSender = [] ∧ packet = .message (.start id) := by
    rintro id (⟨-, rfl⟩ | ⟨-, rfl⟩ | ⟨-, _, rfl⟩) <;> cases inbox
    exact ⟨rfl, rfl, rfl⟩
  cases sender with
  | building =>
      obtain ⟨rfl, -⟩ := handshake
      exact settled.elim
  | awaitingCompleted =>
      rcases handshake with ⟨rfl, -⟩ | ⟨rfl, -⟩ | ⟨-, _, rfl⟩ | ⟨rfl, -⟩
      · exact settled.elim
      · exact settled.elim
      · cases inbox
      · exact settled.elim
  | starting id details | retrying id details =>
      obtain ⟨rest, toSender, packet⟩ := exchange id handshake
      exact ⟨rest, toSender, .inl ⟨id, packet, rfl⟩⟩
  | returned =>
      rcases handshake with ⟨rfl, -⟩ | ⟨-, rfl | ⟨reason, last, rfl⟩⟩ | ⟨rfl, -⟩
      · exact settled.elim
      · cases inbox
      · cases inbox
        exact ⟨rfl, rfl, .inr ⟨reason, last, rfl, rfl⟩⟩
      · exact settled.elim
  | _ =>
      obtain ⟨-, rfl⟩ := handshake
      cases inbox

/-- The two sides agree while the sender waits for the `Completed` message. -/
theorem agreed_of_awaiting (sender : s.sender.pc = .awaitingCompleted)
    (handshake : Handshake cfg.manifest .awaitingCompleted s.receiver.pc s.chan)
    (named : ∀ id details, s.receiver.files.lookup id = some details → details.id = id)
    (untouched : s.sender.files = cfg.manifest.files ∧ s.sender.active = ∅)
    (answered : ∀ ids, s.chan.toSender = [.message (.completed ids)] →
      ∀ id, id ∈ s.receiver.files ↔ id ∈ cfg.manifest.files ∧ id ∉ ids) : Agreed cfg s where
  handshake := sender ▸ handshake
  named := named
  early _ := ⟨untouched.1, untouched.2, answered⟩
  late isLate := by
    rw [sender] at isLate
    exact isLate.elim
  wanted isLate := by
    rw [sender] at isLate
    exact isLate.elim

/-- The two sides agree during an exchange. -/
theorem Agreed.exchange (agreed : Agreed cfg s) {id : UInt32}
    (awaited : s.sender.pc.awaits = some id) (receiver : Receiver) (chan : Fifo)
    (next : Exchange id receiver.pc chan)
    (named : ∀ id details, receiver.files.lookup id = some details → details.id = id)
    (same : ∀ id, id ∈ receiver.files ↔ id ∈ s.receiver.files) :
    Agreed cfg ((s.setReceiver receiver).setChan chan) where
  handshake := (exchange_of_awaits awaited).mpr next
  named := named
  early isEarly := absurd isEarly (SenderPc.late_of_awaits awaited).2
  late isLate id := (same id).trans (agreed.late isLate id)
  wanted isLate id wants := (same id).mpr (agreed.wanted isLate id wants)

/-- Every `Start` message names a file of the receiver. -/
theorem Agreed.known (agreed : Agreed cfg s) (pc : s.receiver.pc = .waiting) {id : UInt32}
    {rest : List Packet} (inbox : s.chan.toReceiver = .message (.start id) :: rest) :
    id ∈ s.receiver.files := by
  obtain ⟨-, -, ⟨_, same, awaited⟩ | ⟨_, _, same, -⟩⟩ :=
    agreed.handshake.inbox (by rw [pc]; trivial) inbox
  · cases same
    exact agreed.wanted (SenderPc.late_of_awaits awaited).1 id (.inr (.inr awaited))
  · cases same

/-- The receiver reads only packets it handles. -/
theorem Agreed.expects (agreed : Agreed cfg s)
    (reads : s.receiver.pc = .awaitingManifest ∨ s.receiver.pc = .waiting) {packet : Packet}
    {rest : List Packet} (inbox : s.chan.toReceiver = packet :: rest) :
    Expects s.receiver.pc packet := by
  have handshake := agreed.handshake
  rcases reads with pc | pc
  · rw [pc] at handshake ⊢
    rcases handshake.of_awaitingManifest with ⟨-, chan⟩ | ⟨-, chan⟩ | ⟨-, chan⟩ <;>
      rw [chan] at inbox <;> cases inbox
    · exact trivial
    · exact rfl
  · obtain ⟨-, -, ⟨_, rfl, -⟩ | ⟨_, last, rfl, -⟩⟩ :=
      handshake.inbox (by rw [pc]; trivial) inbox <;> rw [pc]
    · exact trivial
    · exact last

theorem agreed_receiver (agreed : Agreed cfg s) (move : ReceiverMove cfg s s') :
    Agreed cfg s' := by
  have handshake := agreed.handshake
  cases move with
  | @manifest manifest rest pc inbox =>
      rw [pc] at handshake
      rcases handshake.of_awaitingManifest with ⟨-, chan⟩ | ⟨sender, chan⟩ | ⟨-, chan⟩ <;>
        rw [chan] at inbox <;> cases inbox
      obtain ⟨files, active, -⟩ := agreed.early (sender ▸ trivial)
      have inFlight : (s.setToReceiver []).chan = ⟨[], []⟩ := by
        simp only [State.setToReceiver, State.setChan, chan]
      refine agreed_of_awaiting sender (.inr (.inl ⟨rfl, inFlight⟩)) agreed.named
        ⟨files, active⟩ fun ids sent => ?_
      have sent : (s.setToReceiver []).chan.toSender = [.message (.completed ids)] := sent
      rw [inFlight] at sent
      cases sent
  | nothing pc inbox =>
      rw [pc] at handshake
      rcases handshake.of_awaitingManifest with ⟨-, chan⟩ | ⟨-, chan⟩ | ⟨sender, chan⟩ <;>
        rw [chan] at inbox <;> cases inbox
      refine agreed_of_returned sender (.inr (.inr ⟨rfl, ?_⟩)) agreed.named
      simp only [State.setToReceiver, State.setChan, State.setReceiver, chan]
  | @completed manifest files pc prepared =>
      rw [pc] at handshake
      obtain ⟨sender, rfl, chan⟩ := handshake.of_preparing
      obtain ⟨untouched, active, -⟩ := agreed.early (sender ▸ trivial)
      refine agreed_of_awaiting sender (.inr (.inr (.inl ⟨trivial,
        completedIds cfg.options (diskView cfg.dirLen s.shared.disk) cfg.manifest, ?_⟩))) ?_
        ⟨untouched, active⟩ ?_
      · simp only [State.receiverSays, State.setChan, chan, List.nil_append]
      · exact fun id details found => (mem_of_lookup_fileMap found).2
      · intro ids sent
        simp only [State.receiverSays, State.setChan, chan, List.nil_append] at sent
        cases sent
        exact mem_fileMap_preparedFiles prepared
  | noSpace pc =>
      rw [pc] at handshake
      obtain ⟨sender, -, chan⟩ := handshake.of_preparing
      obtain ⟨untouched, active, -⟩ := agreed.early (sender ▸ trivial)
      refine agreed_of_awaiting sender (.inr (.inr (.inr ⟨rfl, .inr ?_⟩))) agreed.named
        ⟨untouched, active⟩ ?_
      · simp only [State.receiverSays, State.setChan, chan, List.nil_append]
      · intro ids sent
        simp only [State.receiverSays, State.setChan, chan, List.nil_append] at sent
        cases sent
  | setUp pc created =>
      exact @Agreed.settled _ _ agreed .waiting (by rw [pc]; trivial) trivial _ s.tasks
  | @start id details rest pc inbox known =>
      obtain ⟨rfl, toSender, ⟨id', same, awaited⟩ | ⟨_, _, same, -⟩⟩ :=
        handshake.inbox (by rw [pc]; trivial) inbox
      · cases same
        have named : (restarted s.shared.disk details).id = id := by
          unfold restarted
          split <;> exact agreed.named id details known
        refine agreed.exchange awaited _ _ (.inr (.inl ⟨⟨_, rfl, named⟩, ?_⟩)) ?_ ?_
        · simp only [State.setToReceiver, State.setChan, toSender]
        · intro other found look
          rcases lookup_insert_cases look with ⟨rfl, rfl⟩ | look
          · exact named
          · exact agreed.named other found look
        · exact fun other => mem_insert_of_mem (AList.lookup_isSome.mp (by rw [known]; rfl))
      · cases same
  | @unknown id rest pc inbox unknown =>
      exact absurd (agreed.known pc inbox) unknown
  | done pc inbox last =>
      obtain ⟨rfl, toSender, ⟨id', same, awaited⟩ | ⟨_, _, -, sender⟩⟩ :=
        handshake.inbox (by rw [pc]; trivial) inbox
      · cases same
      · refine agreed_of_returned sender (.inr (.inr ⟨rfl, ?_⟩)) agreed.named
        simp only [State.setToReceiver, State.setChan, State.setReceiver, State.setShared,
          toSender]
  | @reply details pc =>
      rw [pc] at handshake
      obtain ⟨awaited, chan⟩ := handshake.of_replying
      refine agreed.exchange awaited _ _ (.inr (.inr ⟨trivial, details.startIndex, ?_⟩)) agreed.named
        fun id => Iff.rfl
      rw [chan]
      rfl
  | push pc => exact @Agreed.settled _ _ agreed (.spawning _) (by rw [pc]; trivial) trivial _ s.tasks
  | spawn pc => exact @Agreed.settled _ _ agreed .waiting (by rw [pc]; trivial) trivial s.shared _
  | unprepared pc =>
      rw [pc] at handshake
      obtain ⟨sender, -, chan⟩ := handshake.of_preparing
      obtain ⟨untouched, active, answered⟩ := agreed.early (sender ▸ trivial)
      exact agreed_of_awaiting sender (.inr (.inr (.inr ⟨rfl, .inl chan⟩))) agreed.named
        ⟨untouched, active⟩ answered
  | stopped reads inbox unexpected => exact absurd (agreed.expects reads inbox) unexpected

/-! ## Runs -/

theorem agreed_move {action : Action} (agreed : Agreed cfg s) (move : Move cfg s action s') :
    Agreed cfg s' := by
  cases move with
  | sender alive move => exact agreed_sender agreed move
  | receiver alive move => exact agreed_receiver agreed move
  | senderExit => exact ⟨agreed.handshake, agreed.named, agreed.early, agreed.late, agreed.wanted⟩
  | receiverExit =>
      exact ⟨agreed.handshake, agreed.named, agreed.early, agreed.late, agreed.wanted⟩
  | task alive here move =>
      exact ⟨agreed.handshake, agreed.named, agreed.early, agreed.late, agreed.wanted⟩

/-- **Handshake.**  In every run the two sides are in one of the listed combinations and
agree on the files. -/
theorem agreed_reached (reached : (ideal cfg).Reachable s) : Agreed cfg s :=
  reached.invariant (fun _ start => agreed_init start)
    fun _ _ _ _ agreed _ next => agreed_move agreed (step_cases next)

end Control

end Cccp
