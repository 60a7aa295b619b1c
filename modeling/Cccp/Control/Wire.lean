import Cccp.Control.Handshake

/-!
# The control stream on the wire

Both ends of the control stream encrypt what they write and decrypt what they read with
one cipher each.  `wire` is the control stream as the bytes that are in flight; over it,
the two controllers behave as over the stream that delivers packets in order, because the
handshake lets only one packet be in flight (`related_reached`).

The length of a message of `2 ^ 32` bytes or more does not fit the `u32` before it, so that all
of this is about a manifest whose message is shorter.
-/

namespace Cccp

namespace Control

open Protobuf

/-! ## The stream -/

def Side.other : Side → Side
  | sender => receiver
  | receiver => sender

/-- One end of a control stream.  `written` and `received` only record what was written
and what came of reading. -/
structure End where
  cipher : StreamCipher
  inbox : Bytes
  written : List Packet
  received : List (Option Packet)

/-- A TCP stream with a `CipherStream` at either end. -/
structure Wire where
  ends : Side → End

def Packet.encode : Packet → Bytes
  | .message m => messageCodec.encode m
  | .startIndex index => startIndexCodec.encode index

def Expected.decode : Expected → Bytes → Option Packet
  | .message, bytes => (messageCodec.decode bytes).map .message
  | .startIndex, bytes => (startIndexCodec.decode bytes).map .startIndex

def wire : Transport Wire where
  write side packet chan :=
    let written := (chan.ends side).cipher.writeMessage packet.encode
    { ends := fun at_ =>
        if at_ = side then
          { chan.ends side with
            cipher := written.2
            written := (chan.ends side).written ++ [packet] }
        else { chan.ends at_ with inbox := (chan.ends at_).inbox ++ written.1 } }
  read side expected chan :=
    ((chan.ends side).cipher.readMessage (chan.ends side).inbox).map fun read =>
      (expected.decode read.1,
        { ends := fun at_ =>
            if at_ = side then
              { cipher := read.2.2
                inbox := read.2.1
                written := (chan.ends side).written
                received := (chan.ends side).received ++ [expected.decode read.1] }
            else chan.ends at_ })

/-- A new stream, with ciphers from equal `control_crypto` values. -/
def Wire.fresh (cipher : StreamCipher) : Wire := ⟨fun _ => ⟨cipher, [], [], []⟩⟩

/-- The control part of a transfer over an encrypted stream. -/
def wired (cfg : Config) (crypto : Crypto) : Machine (State Wire) Action :=
  machine cfg wire fun chan =>
    ∃ cipher, crypto.makeCipher cfg.crates.cipher = .made cipher ∧ chan = .fresh cipher

/-! ## One packet in flight -/

theorem decode_encode {packet : Packet} {expected : Expected}
    (typed : packet.hasType expected = true) (short : packet.encode.length < 2 ^ 32) :
    expected.decode packet.encode = some packet := by
  cases packet with
  | message message =>
      cases expected with
      | message =>
          have short : (messageCodec.encode message).length < 2 ^ 32 := short
          have short : (messageCodec.encode message).length < 2 ^ 64 := by omega
          exact congrArg (Option.map Packet.message) (messageCodec_lawful message short)
      | startIndex => cases typed
  | startIndex index =>
      cases expected with
      | message => cases typed
      | startIndex =>
          have short : (startIndexCodec.encode index).length < 2 ^ 32 := short
          have short : (startIndexCodec.encode index).length < 2 ^ 64 := by omega
          exact congrArg (Option.map Packet.startIndex) (startIndexCodec_lawful index short)

/-- The packets on their way to a side. -/
def Fifo.inbox (chan : Fifo) : Side → List Packet
  | .sender => chan.toSender
  | .receiver => chan.toReceiver

/-- The bytes on the wire are those of a packet from `side`. -/
structure Holds (side : Side) (packet : Packet) (chan : Wire) : Prop where
  short : packet.encode.length < 2 ^ 32
  ahead : (chan.ends side).cipher =
    ((chan.ends side.other).cipher.writeMessage packet.encode).2
  empty : (chan.ends side).inbox = []
  bytes : (chan.ends side.other).inbox =
    ((chan.ends side.other).cipher.writeMessage packet.encode).1

/-- Nothing is on the wire, and the ciphers at its ends are at the same position. -/
structure Quiet (chan : Wire) : Prop where
  empty : ∀ side, (chan.ends side).inbox = []
  aligned : (chan.ends .sender).cipher = (chan.ends .receiver).cipher

/-- The bytes on the wire are the packets in flight, one at most. -/
inductive Carries (chan : Wire) : Fifo → Prop
  | quiet (quiet : Quiet chan) : Carries chan ⟨[], []⟩
  | toReceiver {packet : Packet} (holds : Holds .sender packet chan) :
      Carries chan ⟨[packet], []⟩
  | toSender {packet : Packet} (holds : Holds .receiver packet chan) :
      Carries chan ⟨[], [packet]⟩

/-- What was written to a side is what it has received, and what is on its way. -/
def Logged (chan : Wire) (packets : Fifo) : Prop :=
  ∀ side, (chan.ends side.other).written.map some =
    (chan.ends side).received ++ (packets.inbox side).map some

@[simp] theorem Side.other_ne (side : Side) : side.other ≠ side := by
  cases side <;> rintro ⟨⟩

@[simp] theorem Side.other_other (side : Side) : side.other.other = side := by
  cases side <;> rfl

theorem Side.eq_or_eq (side at_ : Side) : at_ = side ∨ at_ = side.other := by
  cases side <;> cases at_ <;> first | exact .inl rfl | exact .inr rfl

theorem Quiet.cipher_eq {chan : Wire} (quiet : Quiet chan) (side : Side) :
    (chan.ends side).cipher = (chan.ends side.other).cipher := by
  cases side
  · exact quiet.aligned
  · exact quiet.aligned.symm

/-- The stream carries `packet` from `side`. -/
theorem carries_of_holds {side : Side} {packet : Packet} {chan : Wire}
    (holds : Holds side packet chan) :
    Carries chan (fifo.write side packet ⟨[], []⟩) := by
  cases side
  · exact .toReceiver holds
  · exact .toSender holds

theorem holds_of_carries {side : Side} {packet : Packet} {rest : List Packet} {chan : Wire}
    {packets : Fifo} (carries : Carries chan packets)
    (inbox : packets.inbox side = packet :: rest) : Holds side.other packet chan ∧ rest = [] := by
  cases carries with
  | quiet => cases side <;> cases inbox
  | toReceiver holds =>
      cases side <;> cases inbox
      exact ⟨holds, rfl⟩
  | toSender holds =>
      cases side <;> cases inbox
      exact ⟨holds, rfl⟩

theorem quiet_of_carries {chan : Wire} (carries : Carries chan ⟨[], []⟩) : Quiet chan := by
  cases carries with
  | quiet quiet => exact quiet

/-- A packet is written while nothing is in flight. -/
theorem carries_write {chan : Wire} (carries : Carries chan ⟨[], []⟩)
    (logged : Logged chan ⟨[], []⟩) {packet : Packet} (short : packet.encode.length < 2 ^ 32)
    (side : Side) :
    Carries (wire.write side packet chan) (fifo.write side packet ⟨[], []⟩) ∧
      Logged (wire.write side packet chan) (fifo.write side packet ⟨[], []⟩) := by
  have quiet := quiet_of_carries carries
  have aligned := quiet.cipher_eq side
  refine ⟨carries_of_holds ⟨short, ?_, ?_, ?_⟩, fun at_ => ?_⟩
  · simp only [wire, if_true, if_neg side.other_ne, aligned]
  · simp only [wire, if_true]
    exact quiet.empty side
  · simp only [wire, if_neg side.other_ne, quiet.empty, List.nil_append, aligned]
  · have before := logged at_
    rcases side.eq_or_eq at_ with rfl | rfl
    · cases at_ <;> simpa [wire, fifo, Fifo.inbox, Side.other] using before
    · cases side <;> simpa [wire, fifo, Fifo.inbox, Side.other] using before

/-- A packet is read as it was written. -/
theorem carries_read {chan : Wire} {packets : Fifo} (carries : Carries chan packets)
    (logged : Logged chan packets) {side : Side} {expected : Expected}
    (typed : ∀ packet ∈ packets.inbox side, packet.hasType expected = true)
    {read : Option Packet × Wire} (taken : wire.read side expected chan = some read) :
    ∃ packets', fifo.read side expected packets = some (read.1, packets') ∧
      Carries read.2 packets' ∧ Logged read.2 packets' := by
  obtain ⟨⟨encoded, left, cipher⟩, got, rfl⟩ := Option.map_eq_some_iff.mp taken
  cases inbox : packets.inbox side with
  | nil =>
      -- nothing in flight to this side: the read is still waiting
      have empty : (chan.ends side).inbox = [] := by
        cases carries with
        | quiet quiet => exact quiet.empty side
        | toReceiver holds =>
            cases side
            · exact holds.empty
            · cases inbox
        | toSender holds =>
            cases side
            · cases inbox
            · exact holds.empty
      rw [empty, StreamCipher.readMessage_nil] at got
      cases got
  | cons packet rest =>
      obtain ⟨⟨short, ahead, empty, bytes⟩, rfl⟩ := holds_of_carries carries inbox
      rw [Side.other_other] at ahead bytes
      have whole := StreamCipher.readMessage_writeMessage (chan.ends side).cipher.keystream
        (chan.ends side).cipher.offset (chan.ends side).cipher.ends packet.encode short
      rw [bytes, whole] at got
      cases got
      have isTyped := typed packet (inbox ▸ List.mem_singleton_self _)
      have decoded := decode_encode isTyped short
      have both : packets = fifo.write side.other packet ⟨[], []⟩ := by
        cases carries with
        | quiet => cases side <;> cases inbox
        | toReceiver => cases side <;> cases inbox; rfl
        | toSender => cases side <;> cases inbox; rfl
      subst both
      refine ⟨⟨[], []⟩, ?_, .quiet ⟨fun at_ => ?_, ?_⟩, fun at_ => ?_⟩
      · rw [decoded]
        cases side <;> simp [fifo, Side.other, Packet.readAs, isTyped]
      · rcases side.eq_or_eq at_ with rfl | rfl
        · simp
        · simpa using empty
      · cases side <;> simp [Side.other] at ahead ⊢ <;> simp [ahead]
      · have before := logged at_
        rw [decoded]
        cases side <;> cases at_ <;> simpa [fifo, Fifo.inbox, Side.other] using before

/-! ## The packets are short -/

variable {cfg : Config}

theorem short_start (id : UInt32) : (Packet.message (.start id)).encode.length < 2 ^ 32 := by
  have inner := length_varintField_le 1 id.toNat
  have outer := length_bytesField_le 4 (startCodec.encode id)
  simp only [Packet.encode, messageCodec, encodeMessage, messageField, startCodec, uint32Codec,
    List.flatten_cons, List.flatten_nil, List.append_nil] at outer ⊢
  omega

theorem short_startIndex (index : UInt64) : (Packet.startIndex index).encode.length < 2 ^ 32 := by
  have inner := length_varintField_le 1 index.toNat
  simp only [Packet.encode, startIndexCodec, List.flatten_cons, List.flatten_nil, List.append_nil]
  omega

/-- The message that names the completed files is no longer than the manifest's. -/
theorem short_completed {options : ReceiverOptions} {disk : DiskView} {manifest : Manifest}
    (short : (Packet.message (.manifest manifest)).encode.length < 2 ^ 32) :
    (Packet.message (.completed (completedIds options disk manifest))).encode.length < 2 ^ 32 := by
  refine Nat.lt_of_le_of_lt ?_ short
  exact length_bytesField_mono (by decide)
    (length_completed_le (completedIds_sublist options disk manifest))

/-! ## The machine -/

/-- The state with another stream in the place of its own. -/
def State.withChan {χ χ' : Type} (s : State χ) (chan : χ') : State χ' :=
  ⟨s.sender, s.receiver, s.shared, s.tasks, chan⟩

/-- The same state, over the wire and over the ideal stream. -/
def Related (s : State Wire) (t : State Fifo) : Prop :=
  t = s.withChan t.chan ∧ Carries s.chan t.chan ∧ Logged s.chan t.chan

variable {s s' : State Wire} {packets : Fifo}

/-- A packet is written while nothing is in flight, by one side or the other. -/
theorem related_write (carries : Carries s.chan packets) (logged : Logged s.chan packets)
    (idle : packets = ⟨[], []⟩) {packet : Packet} (short : packet.encode.length < 2 ^ 32)
    (side : Side) (next : State Wire) :
    Related (next.setChan (wire.write side packet s.chan))
      ((next.withChan packets).setChan (fifo.write side packet packets)) := by
  subst idle
  obtain ⟨carries, logged⟩ := carries_write carries logged short side
  exact ⟨rfl, carries, logged⟩

/-- The sender takes in a message of a task while nothing is in flight. -/
theorem receiveMessage_wire (carries : Carries s.chan packets) (logged : Logged s.chan packets)
    (idle : packets = ⟨[], []⟩) (message : Message) :
    Related (receiveMessage wire s message) (receiveMessage fifo (s.withChan packets) message) := by
  have sender_eq : (s.withChan packets).sender = s.sender := rfl
  cases message with
  | end_ id => exact ⟨rfl, carries, logged⟩
  | failure id reason description =>
      simp only [receiveMessage, sender_eq]
      split
      next =>
        split
        next => exact related_write carries logged idle (short_start id) _ _
        next => exact ⟨rfl, carries, logged⟩
      next =>
        split
        next =>
          split
          next =>
            split
            next => exact ⟨rfl, carries, logged⟩
            next => exact ⟨rfl, carries, logged⟩
          next => exact ⟨rfl, carries, logged⟩
        next => exact ⟨rfl, carries, logged⟩
  | _ => exact ⟨rfl, carries, logged⟩

/-- What comes to the sender is of the type it reads. -/
theorem Handshake.typed_sender {manifest : Manifest} {sender : SenderPc} {receiver : ReceiverPc}
    {chan : Fifo} (handshake : Handshake manifest sender receiver chan) {packet : Packet}
    (mem : packet ∈ chan.toSender) :
    (sender = .awaitingCompleted ∧ packet.hasType .message = true) ∨
      ((∃ id, sender.awaits = some id) ∧ packet.hasType .startIndex = true) := by
  have exchange : ∀ {id}, Exchange id receiver chan → packet.hasType .startIndex = true := by
    rintro id (⟨-, rfl⟩ | ⟨-, rfl⟩ | ⟨-, index, rfl⟩)
    · cases mem
    · cases mem
    · cases List.mem_singleton.mp mem
      rfl
  cases sender with
  | awaitingCompleted =>
      refine .inl ⟨rfl, ?_⟩
      rcases handshake with ⟨-, rfl⟩ | ⟨-, rfl⟩ | ⟨-, ids, rfl⟩ | ⟨-, rfl | rfl⟩
      · cases mem
      · cases mem
      · cases List.mem_singleton.mp mem
        rfl
      · cases mem
      · cases List.mem_singleton.mp mem
        rfl
  | starting id details => exact .inr ⟨⟨id, rfl⟩, exchange handshake⟩
  | retrying id details => exact .inr ⟨⟨id, rfl⟩, exchange handshake⟩
  | returned =>
      rcases handshake with ⟨-, rfl⟩ | ⟨-, rfl | ⟨_, -, rfl⟩⟩ | ⟨-, rfl⟩ <;> cases mem
  | _ =>
      obtain ⟨-, rfl⟩ := handshake
      cases mem

theorem senderStep_wire (carries : Carries s.chan packets) (logged : Logged s.chan packets)
    (handshake : Handshake cfg.manifest s.sender.pc s.receiver.pc packets)
    (short : (Packet.message (.manifest cfg.manifest)).encode.length < 2 ^ 32)
    (next : senderStep cfg wire s = some s') :
    ∃ t, senderStep cfg fifo (s.withChan packets) = some t ∧ Related s' t := by
  have sender_eq : (s.withChan packets).sender = s.sender := rfl
  have shared_eq : (s.withChan packets).shared = s.shared := rfl
  have chan_eq : (s.withChan packets).chan = packets := rfl
  have reads : ∀ {expected : Expected} {read : Option Packet × Wire}
      (_ : ∀ packet ∈ packets.toSender, packet.hasType expected = true)
      (_ : wire.read .sender expected s.chan = some read),
      ∃ packets', fifo.read .sender expected packets = some (read.1, packets') ∧
        Carries read.2 packets' ∧ Logged read.2 packets' := fun typed taken =>
    @carries_read _ _ carries logged .sender _ typed _ taken
  cases pc : s.sender.pc with
  | building =>
      rw [pc] at handshake
      simp only [senderStep, pc, sender_eq, chan_eq] at next ⊢
      split at next
      next empty =>
        cases next
        exact ⟨_, if_pos empty, related_write carries logged handshake.2 (by decide) _ _⟩
      next nonempty =>
        cases next
        exact ⟨_, if_neg nonempty, related_write carries logged handshake.2 short _ _⟩
  | awaitingCompleted =>
      have typed : ∀ packet ∈ packets.toSender, packet.hasType .message = true := by
        intro packet mem
        rcases handshake.typed_sender mem with ⟨-, typed⟩ | ⟨⟨id, awaited⟩, -⟩
        · exact typed
        · rw [pc] at awaited
          cases awaited
      simp only [senderStep, pc, sender_eq, chan_eq] at next ⊢
      obtain ⟨read, taken, rfl⟩ := Option.map_eq_some_iff.mp next
      obtain ⟨packets', taken, carries, logged⟩ := reads typed taken
      rw [taken]
      exact ⟨_, rfl, rfl, carries, logged⟩
  | allCompleted =>
      rw [pc] at handshake
      simp only [senderStep, pc, sender_eq, chan_eq] at next ⊢
      cases next
      exact ⟨_, rfl, related_write carries logged handshake.2 (by decide) _ _⟩
  | filling =>
      rw [pc] at handshake
      simp only [senderStep, pc, sender_eq, chan_eq] at next ⊢
      split at next
      next room =>
        rw [if_pos room]
        cases found : s.sender.files.lookup s.sender.nextId with
        | none =>
            have found' : s.sender.files.lookup (s.withChan packets).sender.nextId = none := found
            rw [found] at next
            rw [found']
            cases next
            exact ⟨_, rfl, rfl, carries, logged⟩
        | some details =>
            have found' : s.sender.files.lookup (s.withChan packets).sender.nextId =
              some details := found
            rw [found] at next
            rw [found']
            cases next
            exact ⟨_, rfl, related_write carries logged handshake.2 (short_start _) _ _⟩
      next full =>
        rw [if_neg full]
        cases next
        exact ⟨_, rfl, rfl, carries, logged⟩
  | starting id details | retrying id details =>
      have typed : ∀ packet ∈ packets.toSender, packet.hasType .startIndex = true := by
        intro packet mem
        rcases handshake.typed_sender mem with ⟨absurd_, -⟩ | ⟨-, typed⟩
        · cases pc.symm.trans absurd_
        · exact typed
      simp only [senderStep, pc, sender_eq, chan_eq] at next ⊢
      obtain ⟨read, taken, rfl⟩ := Option.map_eq_some_iff.mp next
      obtain ⟨packets', taken, carries, logged⟩ := reads typed taken
      rw [taken]
      exact ⟨_, rfl, rfl, carries, logged⟩
  | waiting =>
      rw [pc] at handshake
      simp only [senderStep, pc, sender_eq, shared_eq] at next ⊢
      split at next
      next => cases next
      next message rest inbox =>
        cases next
        exact ⟨_, rfl, @receiveMessage_wire (s.setShared { s.shared with messages := rest })
          packets carries logged handshake.2 message⟩
  | finishing =>
      rw [pc] at handshake
      simp only [senderStep, pc, sender_eq, chan_eq] at next ⊢
      cases next
      exact ⟨_, rfl, related_write carries logged handshake.2 (by decide) _ _⟩
  | returned =>
      simp only [senderStep, pc] at next
      cases next

/-- What comes to the receiver is a message, and a `Start` message is waited on. -/
theorem Handshake.message_to_receiver {manifest : Manifest} {sender : SenderPc}
    {receiver : ReceiverPc} {chan : Fifo} (handshake : Handshake manifest sender receiver chan)
    {packet : Packet} (mem : packet ∈ chan.toReceiver) :
    ∃ message, packet = .message message ∧ ∀ id, message = .start id → sender.awaits = some id := by
  have exchange : ∀ {asked}, Exchange asked receiver chan → packet = .message (.start asked) := by
    rintro asked (⟨-, rfl⟩ | ⟨-, rfl⟩ | ⟨-, index, rfl⟩)
    · exact List.mem_singleton.mp mem
    · cases mem
    · cases mem
  cases sender with
  | awaitingCompleted =>
      rcases handshake with ⟨-, rfl⟩ | ⟨-, rfl⟩ | ⟨-, ids, rfl⟩ | ⟨-, rfl | rfl⟩
      · exact ⟨_, List.mem_singleton.mp mem, by rintro id ⟨⟩⟩
      all_goals cases mem
  | starting asked details | retrying asked details =>
      refine ⟨_, exchange handshake, fun id same => ?_⟩
      cases same
      rfl
  | returned =>
      rcases handshake with ⟨-, rfl⟩ | ⟨-, rfl | ⟨_, -, rfl⟩⟩ | ⟨-, rfl⟩
      · exact ⟨_, List.mem_singleton.mp mem, by rintro id ⟨⟩⟩
      · cases mem
      · exact ⟨_, List.mem_singleton.mp mem, by rintro id ⟨⟩⟩
      · cases mem
  | _ =>
      obtain ⟨-, rfl⟩ := handshake
      cases mem

/-- The receiver takes in what it has read. -/
theorem receiveStart_wire (carries : Carries s.chan packets) (logged : Logged s.chan packets)
    (packet : Option Packet) :
    Related (receiveStart s packet) (receiveStart (s.withChan packets) packet) := by
  have receiver_eq : (s.withChan packets).receiver = s.receiver := rfl
  simp only [receiveStart, receiver_eq]
  split
  next id =>
    split
    next => exact ⟨rfl, carries, logged⟩
    next => exact ⟨rfl, carries, logged⟩
  next =>
    split
    next => exact ⟨rfl, carries, logged⟩
    next => exact ⟨rfl, carries, logged⟩
  next => exact ⟨rfl, carries, logged⟩

theorem receiverStep_wire {space : Bool} (carries : Carries s.chan packets)
    (logged : Logged s.chan packets)
    (handshake : Handshake cfg.manifest s.sender.pc s.receiver.pc packets)
    (short : (Packet.message (.manifest cfg.manifest)).encode.length < 2 ^ 32)
    (next : receiverStep cfg wire space s = some s') :
    ∃ t, receiverStep cfg fifo space (s.withChan packets) = some t ∧ Related s' t := by
  have receiver_eq : (s.withChan packets).receiver = s.receiver := rfl
  have shared_eq : (s.withChan packets).shared = s.shared := rfl
  have chan_eq : (s.withChan packets).chan = packets := rfl
  have reads : ∀ {read : Option Packet × Wire} (_ : wire.read .receiver .message s.chan = some read),
      ∃ packets', fifo.read .receiver .message packets = some (read.1, packets') ∧
        Carries read.2 packets' ∧ Logged read.2 packets' := by
    intro read taken
    refine @carries_read _ _ carries logged .receiver _ (fun packet mem => ?_) _ taken
    obtain ⟨message, rfl, -⟩ := handshake.message_to_receiver mem
    rfl
  cases pc : s.receiver.pc with
  | awaitingManifest =>
      simp only [receiverStep, pc, receiver_eq, chan_eq] at next ⊢
      obtain ⟨read, taken, rfl⟩ := Option.map_eq_some_iff.mp next
      obtain ⟨packets', taken, carries, logged⟩ := reads taken
      rw [taken]
      exact ⟨_, rfl, rfl, carries, logged⟩
  | preparing manifest =>
      rw [pc] at handshake
      obtain ⟨-, rfl, idle⟩ := handshake.of_preparing
      simp only [receiverStep, pc, receiver_eq, shared_eq, chan_eq] at next ⊢
      split at next
      next unprepared =>
        cases next
        exact ⟨_, rfl, rfl, carries, logged⟩
      next files prepared =>
        split at next
        next full =>
          rw [if_pos full]
          cases next
          exact ⟨_, rfl, related_write carries logged idle (by decide) _ _⟩
        next room =>
          rw [if_neg room]
          cases next
          exact ⟨_, rfl, related_write carries logged idle (short_completed short) _ _⟩
  | settingUp manifest =>
      simp only [receiverStep, pc, receiver_eq, shared_eq] at next ⊢
      obtain ⟨disk, created, rfl⟩ := Option.map_eq_some_iff.mp next
      rw [created]
      exact ⟨_, rfl, rfl, carries, logged⟩
  | waiting =>
      simp only [receiverStep, pc, receiver_eq, chan_eq] at next ⊢
      obtain ⟨read, taken, rfl⟩ := Option.map_eq_some_iff.mp next
      obtain ⟨packets', taken, carries, logged⟩ := reads taken
      rw [taken]
      exact ⟨_, rfl, @receiveStart_wire (s.setChan read.2) packets' carries logged read.1⟩
  | replying details =>
      rw [pc] at handshake
      simp only [receiverStep, pc, receiver_eq, chan_eq] at next ⊢
      cases next
      exact ⟨_, rfl, related_write carries logged handshake.of_replying.2 (short_startIndex _) _ _⟩
  | pushing details =>
      simp only [receiverStep, pc, receiver_eq, shared_eq] at next ⊢
      cases next
      exact ⟨_, rfl, rfl, carries, logged⟩
  | spawning details =>
      simp only [receiverStep, pc, receiver_eq] at next ⊢
      cases next
      exact ⟨_, rfl, rfl, carries, logged⟩
  | returned =>
      simp only [receiverStep, pc] at next
      cases next

/-! ## Runs -/

theorem related_step {t : State Fifo} {action : Action} (related : Related s t)
    (agreed : Agreed cfg t)
    (short : (Packet.message (.manifest cfg.manifest)).encode.length < 2 ^ 32)
    (next : step cfg wire s action = some s') :
    ∃ t', step cfg fifo t action = some t' ∧ Related s' t' := by
  obtain ⟨same, carries, logged⟩ := related
  have handshake : Handshake cfg.manifest s.sender.pc s.receiver.pc t.chan := by
    have handshake := agreed.handshake
    rw [same] at handshake
    exact handshake
  rw [same]
  cases action with
  | sender =>
      simp only [step] at next ⊢
      split at next
      next alive =>
        have alive' : (s.withChan t.chan).sender.alive = true := alive
        rw [if_pos alive']
        exact senderStep_wire carries logged handshake short next
      next => cases next
  | senderExit =>
      cases next
      exact ⟨_, rfl, rfl, carries, logged⟩
  | receiver space =>
      simp only [step] at next ⊢
      split at next
      next alive =>
        have alive' : (s.withChan t.chan).receiver.alive = true := alive
        rw [if_pos alive']
        exact receiverStep_wire carries logged handshake short next
      next => cases next
  | receiverExit =>
      cases next
      exact ⟨_, rfl, rfl, carries, logged⟩
  | task index action =>
      simp only [step] at next ⊢
      split at next
      next alive =>
        have alive' : (s.withChan t.chan).receiver.alive = true := alive
        rw [if_pos alive']
        obtain ⟨task, here, moved⟩ := Option.bind_eq_some_iff.mp next
        obtain ⟨after, stepped, rfl⟩ := Option.map_eq_some_iff.mp moved
        have here' : (s.withChan t.chan).tasks[index]? = some task := here
        have stepped' : task.step cfg.crates (s.withChan t.chan).shared action = some after := stepped
        simp only [taskStep, here', Option.bind_some, stepped', Option.map_some]
        exact ⟨_, rfl, rfl, carries, logged⟩
      next => cases next

/-- **Refinement.**  A run over the wire is one over the stream that delivers packets in
order, with at most one of them in flight. -/
theorem related_reached {crypto : Crypto}
    (short : (Packet.message (.manifest cfg.manifest)).encode.length < 2 ^ 32)
    (reached : (wired cfg crypto).Reachable s) :
    ∃ t, (ideal cfg).Reachable t ∧ Related s t := by
  refine reached.refine Related ?_ ?_
  · rintro _ ⟨disk, _, ⟨cipher, -, rfl⟩, rfl⟩
    refine ⟨initial cfg disk ⟨[], []⟩, ⟨disk, _, rfl, rfl⟩, rfl, ?_, ?_⟩
    · exact .quiet ⟨fun _ => rfl, rfl⟩
    · rintro (_ | _) <;> rfl
  · intro s action s' t _ reachedT related _ next
    obtain ⟨t', stepped, related⟩ := related_step related (agreed_reached reachedT) short next
    exact .inr ⟨action, t', stepped, related⟩

end Control

end Cccp
