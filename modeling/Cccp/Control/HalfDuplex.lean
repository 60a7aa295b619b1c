import Cccp.Control.Wire

/-!
# The discipline of the control stream

Each end of the control stream enciphers and deciphers with one cipher, so that the two
ends must take turns.  `HalfDuplex` says that they do: one message is unread at most, what is
read is what was written, and nobody waits for a message that will not be sent.
-/

namespace Cccp

namespace Control

open Protobuf

variable {cfg : Config}

/-! ## Who waits for whom -/

/-- A side that has returned and is still connected has said so, or was told so. -/
structure Closing (s : State Fifo) : Prop where
  sender : s.sender.alive = true → s.sender.pc = .returned →
    s.receiver.pc = .returned ∨ s.chan.toReceiver ≠ []
  receiver : s.receiver.alive = true → s.receiver.pc = .returned → s.sender.pc = .returned

theorem closing_init {s : State Fifo} (start : (ideal cfg).init s) : Closing s := by
  obtain ⟨disk, chan, rfl, rfl⟩ := start
  exact ⟨fun _ => by rintro ⟨⟩, fun _ => by rintro ⟨⟩⟩

variable {s s' : State Fifo}

theorem SenderPc.Free.not_returned {pc : SenderPc} (free : pc.Free) : pc ≠ .returned := by
  rintro rfl
  exact free

theorem closing_sender (closing : Closing s) (move : SenderMove cfg s s') : Closing s' := by
  have said : ∀ packet, s.chan.toReceiver ++ [packet] ≠ [] := fun packet =>
    List.append_ne_nil_of_right_ne_nil _ (List.cons_ne_nil _ _)
  have open_ : s.sender.pc ≠ .returned → s.receiver.alive = true → s.receiver.pc ≠ .returned :=
    fun runs alive returned => runs (closing.receiver alive returned)
  cases move with
  | nothing pc | allCompleted pc | finish pc => exact ⟨fun _ _ => .inr (said _), fun _ _ => rfl⟩
  | stopped => exact ⟨by rintro ⟨⟩, fun _ _ => rfl⟩
  | manifest pc | start pc | retry pc =>
      refine ⟨fun _ => by rintro ⟨⟩, fun alive returned => ?_⟩
      exact absurd returned (open_ (by rw [pc]; rintro ⟨⟩) alive)
  | @completed ids rest pc inbox =>
      have free : (s.sender.complete ids).pc ≠ .returned := by
        rw [Sender.complete]
        split <;> rintro ⟨⟩
      refine ⟨fun _ returned => absurd returned free, fun alive returned => ?_⟩
      exact absurd returned (open_ (by rw [pc]; rintro ⟨⟩) alive)
  | skip pc =>
      refine ⟨fun _ returned => ?_, fun alive returned => ?_⟩
      · cases pc.symm.trans returned
      · exact absurd returned (open_ (by rw [pc]; rintro ⟨⟩) alive)
  | full pc | started pc =>
      refine ⟨fun _ => by rintro ⟨⟩, fun alive returned => ?_⟩
      exact absurd returned (open_ (by rw [pc]; rintro ⟨⟩) alive)
  | told pc | retried pc =>
      refine ⟨fun _ returned => ?_, fun alive returned => ?_⟩
      · exact absurd returned (Sender.afterMessage_free _).not_returned
      · exact absurd returned (open_ (by rw [pc]; rintro ⟨⟩) alive)

theorem closing_receiver (closing : Closing s) (agreed : Agreed cfg s)
    (move : ReceiverMove cfg s s') : Closing s' := by
  have handshake := agreed.handshake
  -- what is on its way to the receiver stays there
  have keeps : s.receiver.pc ≠ .returned → s.sender.alive = true → s.sender.pc = .returned →
      s.chan.toReceiver ≠ [] := fun runs alive returned =>
    (closing.sender alive returned).resolve_left runs
  cases move with
  | manifest pc inbox =>
      rw [pc] at handshake
      refine ⟨fun _ returned => ?_, fun _ => by rintro ⟨⟩⟩
      rcases handshake.of_awaitingManifest with ⟨sender, -⟩ | ⟨sender, -⟩ | ⟨-, chan⟩
      · cases sender.symm.trans returned
      · cases sender.symm.trans returned
      · rw [chan] at inbox
        cases inbox
  | nothing pc inbox =>
      rw [pc] at handshake
      refine ⟨fun _ _ => .inl rfl, fun _ _ => ?_⟩
      rcases handshake.of_awaitingManifest with ⟨-, chan⟩ | ⟨-, chan⟩ | ⟨sender, -⟩
      · rw [chan] at inbox
        cases inbox
      · rw [chan] at inbox
        cases inbox
      · exact sender
  | start pc inbox | unknown pc inbox =>
      obtain ⟨-, -, ⟨_, -, awaited⟩ | ⟨_, _, same, -⟩⟩ :=
        handshake.inbox (by rw [pc]; trivial) inbox
      · refine ⟨fun _ returned => ?_, fun _ returned => ?_⟩
        · have returned : s.sender.pc = .returned := returned
          rw [returned] at awaited
          cases awaited
        · first | cases returned | cases pc.symm.trans returned
      · cases same
  | done pc inbox =>
      obtain ⟨-, -, ⟨_, same, -⟩ | ⟨_, _, -, sender⟩⟩ := handshake.inbox (by rw [pc]; trivial) inbox
      · cases same
      · exact ⟨fun _ _ => .inl rfl, fun _ _ => sender⟩
  | noSpace | unprepared | stopped => exact ⟨fun _ _ => .inl rfl, by rintro ⟨⟩⟩
  | completed pc | setUp pc | reply pc | push pc | spawn pc =>
      exact ⟨fun alive returned => .inr (keeps (by rw [pc]; rintro ⟨⟩) alive returned),
        fun _ => by rintro ⟨⟩⟩

theorem closing_reached (reached : (ideal cfg).Reachable s) : Closing s := by
  apply reached.invariant (fun _ start => closing_init start)
  intro s action s' before closing _ next
  cases step_cases next with
  | sender alive move => exact closing_sender closing move
  | receiver alive move => exact closing_receiver closing (agreed_reached before) move
  | senderExit => exact ⟨by rintro ⟨⟩, closing.receiver⟩
  | receiverExit => exact ⟨closing.sender, by rintro ⟨⟩⟩
  | task alive here move => exact ⟨closing.sender, closing.receiver⟩

/-- The receiver is about to answer. -/
def ReceiverPc.Answers : ReceiverPc → Prop
  | .preparing _ | .replying _ => True
  | _ => False

theorem toSender_ne_nil {chan : Fifo} {packet : Packet} (here : chan = ⟨[], [packet]⟩) :
    chan.toSender ≠ [] := by
  rw [here]
  exact List.cons_ne_nil _ _

theorem toReceiver_ne_nil {chan : Fifo} {packet : Packet} (here : chan = ⟨[packet], []⟩) :
    chan.toReceiver ≠ [] := by
  rw [here]
  exact List.cons_ne_nil _ _

/-- Where a sender waits for a reply, the reply or what it replies to is on its way, or the
receiver is about to answer. -/
theorem replied (agreed : Agreed cfg s) (closing : Closing s)
    (connected : s.receiver.alive = true)
    (waits : s.sender.pc = .awaitingCompleted ∨ ∃ id, s.sender.pc.awaits = some id) :
    s.chan.toSender ≠ [] ∨ s.chan.toReceiver ≠ [] ∧ s.receiver.pc ≠ .returned ∨
      s.receiver.pc.Answers := by
  have handshake := agreed.handshake
  rcases waits with pc | ⟨id, awaited⟩
  · rw [pc] at handshake
    rcases handshake with ⟨receiver, chan⟩ | ⟨receiver, -⟩ | ⟨-, _, chan⟩ | ⟨receiver, -⟩
    · refine .inr (.inl ⟨toReceiver_ne_nil chan, fun returned => ?_⟩)
      cases receiver.symm.trans returned
    · exact .inr (.inr (receiver ▸ trivial))
    · exact .inl (toSender_ne_nil chan)
    · cases pc.symm.trans (closing.receiver connected receiver)
  · rcases (exchange_of_awaits awaited).mp handshake with ⟨settled, chan⟩ | ⟨⟨_, receiver, -⟩, -⟩ |
      ⟨-, _, chan⟩
    · refine .inr (.inl ⟨toReceiver_ne_nil chan, fun returned => ?_⟩)
      rw [returned] at settled
      exact settled
    · exact .inr (.inr (receiver ▸ trivial))
    · exact .inl (toSender_ne_nil chan)

/-- Where a receiver waits for a message, one is on its way, or the sender has a reply to
read, or goes on by itself. -/
theorem asked (agreed : Agreed cfg s) (closing : Closing s) (connected : s.sender.alive = true)
    (waits : s.receiver.pc = .awaitingManifest ∨ s.receiver.pc = .waiting) :
    s.chan.toReceiver ≠ [] ∨ s.chan.toSender ≠ [] ∨ s.sender.pc = .building ∨ s.sender.pc.Free := by
  have handshake := agreed.handshake
  have differs : ∀ {pc : ReceiverPc}, s.receiver.pc = pc → pc ≠ .awaitingManifest →
      pc ≠ .waiting → False := by
    rintro _ rfl notFirst notLater
    exact waits.elim notFirst notLater
  cases pc : s.sender.pc with
  | building => exact .inr (.inr (.inl rfl))
  | awaitingCompleted =>
      rw [pc] at handshake
      rcases handshake with ⟨-, chan⟩ | ⟨receiver, -⟩ | ⟨-, _, chan⟩ | ⟨receiver, -⟩
      · exact .inl (toReceiver_ne_nil chan)
      · exact (differs receiver (by rintro ⟨⟩) (by rintro ⟨⟩)).elim
      · exact .inr (.inl (toSender_ne_nil chan))
      · exact (differs receiver (by rintro ⟨⟩) (by rintro ⟨⟩)).elim
  | starting id details | retrying id details =>
      rw [pc] at handshake
      rcases handshake with ⟨-, chan⟩ | ⟨⟨_, receiver, -⟩, -⟩ | ⟨-, _, chan⟩
      · exact .inl (toReceiver_ne_nil chan)
      · exact (differs receiver (by rintro ⟨⟩) (by rintro ⟨⟩)).elim
      · exact .inr (.inl (toSender_ne_nil chan))
  | returned =>
      refine .inl ((closing.sender connected pc).resolve_left fun receiver => ?_)
      exact differs receiver (by rintro ⟨⟩) (by rintro ⟨⟩)
  | _ => exact .inr (.inr (.inr trivial))

/-! ## The other stream -/

/-- The side that acts. -/
def Action.side : Action → Side
  | .sender | .senderExit => .sender
  | .receiver _ | .receiverExit | .task _ _ => .receiver

/-- `End` and `Failure` messages are written by the receiver's side and read by the sender. -/
theorem one_way {action : Action} (move : Move cfg s action s') :
    (action.side = .sender → s'.shared.messages <:+ s.shared.messages) ∧
      (action.side = .receiver → s.shared.messages <+: s'.shared.messages) := by
  cases move with
  | sender alive move =>
      refine ⟨fun _ => ?_, by rintro ⟨⟩⟩
      cases move with
      | told pc inbox | retry pc inbox => exact ⟨[_], inbox.symm⟩
      | stopped waits later => exact later
      | _ => exact List.suffix_refl _
  | senderExit => exact ⟨fun _ => List.suffix_refl _, by rintro ⟨⟩⟩
  | receiver alive move =>
      refine ⟨by rintro ⟨⟩, fun _ => ?_⟩
      rw [move.messages_eq]
  | receiverExit => exact ⟨by rintro ⟨⟩, fun _ => List.prefix_refl _⟩
  | @task index action task task' shared' alive here move =>
      refine ⟨by rintro ⟨⟩, fun _ => ?_⟩
      have tells := move.tells
      generalize task'.phase = phase at tells
      cases tells with
      | nothing same =>
          show s.shared.messages <+: shared'.messages
          rw [same]
      | mismatch | end_ | error => exact List.prefix_append _ _

/-! ## The discipline -/

/-- What was written to a side and is not read. -/
def Wire.unread (chan : Wire) (side : Side) : List Packet :=
  (chan.ends side.other).written.drop (chan.ends side).received.length

/-- **The discipline** of the control stream, and of the stream beside it. -/
structure HalfDuplex (cfg : Config) (s : State Wire) : Prop where
  /-- one message is unread at most, of one side or of the other -/
  turns : (s.chan.unread .sender).length + (s.chan.unread .receiver).length ≤ 1
  aligned : (∀ side, s.chan.unread side = []) →
    (s.chan.ends .sender).cipher = (s.chan.ends .receiver).cipher
  /-- a side has received what the other one wrote, as it wrote it and in this order -/
  delivered : ∀ side, (s.chan.ends side).received =
    ((s.chan.ends side.other).written.take (s.chan.ends side).received.length).map some
  started : ∀ id, .message (.start id) ∈ s.chan.unread .receiver → id ∈ s.receiver.files
  known : s.sender.pc.Late →
    ∀ id, id ∈ s.receiver.files ↔ id ∈ cfg.manifest.files ∧ id ∉ s.sender.completed
  replied : s.sender.alive = true → s.receiver.alive = true →
    (s.sender.pc = .awaitingCompleted ∨ ∃ id, s.sender.pc.awaits = some id) →
      s.chan.unread .sender ≠ [] ∨
        s.chan.unread .receiver ≠ [] ∧ s.receiver.pc ≠ .returned ∨ s.receiver.pc.Answers
  asked : s.sender.alive = true → s.receiver.alive = true →
    (s.receiver.pc = .awaitingManifest ∨ s.receiver.pc = .waiting) →
      s.chan.unread .receiver ≠ [] ∨ s.chan.unread .sender ≠ [] ∨ s.sender.pc = .building ∨
        s.sender.pc.Free
  oneWay : ∀ action s', step cfg wire s action = some s' →
    (action.side = .sender → s'.shared.messages <:+ s.shared.messages) ∧
      (action.side = .receiver → s.shared.messages <+: s'.shared.messages)

theorem Logged.unread_eq {chan : Wire} {packets : Fifo} (logged : Logged chan packets)
    (side : Side) : chan.unread side = packets.inbox side := by
  have dropped := congrArg (List.drop (chan.ends side).received.length) (logged side)
  rw [← List.map_drop, List.drop_left] at dropped
  exact List.map_injective_iff.mpr (fun _ _ => Option.some.inj) dropped

theorem Logged.received_eq {chan : Wire} {packets : Fifo} (logged : Logged chan packets)
    (side : Side) : (chan.ends side).received =
      ((chan.ends side.other).written.take (chan.ends side).received.length).map some := by
  rw [List.map_take, logged side, List.take_left]

theorem Carries.turns {chan : Wire} {packets : Fifo} (carries : Carries chan packets) :
    packets.toSender.length + packets.toReceiver.length ≤ 1 := by
  cases carries with
  | quiet => exact Nat.zero_le _
  | toReceiver => exact Nat.le_refl _
  | toSender => exact Nat.le_refl _

theorem Carries.aligned {chan : Wire} {packets : Fifo} (carries : Carries chan packets)
    (idle : ∀ side, packets.inbox side = []) :
    (chan.ends .sender).cipher = (chan.ends .receiver).cipher := by
  cases carries with
  | quiet quiet => exact quiet.aligned
  | toReceiver => cases idle .receiver
  | toSender => cases idle .sender

/-- What holds of the two controllers over packets holds of them over the wire. -/
theorem halfDuplex_of_short {crypto : Crypto} {s : State Wire}
    (short : (Packet.message (.manifest cfg.manifest)).encode.length < 2 ^ 32)
    (reached : (wired cfg crypto).Reachable s) : HalfDuplex cfg s := by
  obtain ⟨t, reachedT, related⟩ := related_reached short reached
  have agreed := agreed_reached reachedT
  have closing := closing_reached reachedT
  obtain ⟨same, carries, logged⟩ := id related
  have sender : t.sender = s.sender := congrArg State.sender same
  have receiver : t.receiver = s.receiver := congrArg State.receiver same
  have shared : t.shared = s.shared := congrArg State.shared same
  have toSender : s.chan.unread .sender = t.chan.toSender := logged.unread_eq .sender
  have toReceiver : s.chan.unread .receiver = t.chan.toReceiver := logged.unread_eq .receiver
  constructor
  case turns =>
    rw [toSender, toReceiver]
    exact carries.turns
  case aligned =>
    intro idle
    exact carries.aligned fun side => (logged.unread_eq side).symm.trans (idle side)
  case delivered => exact logged.received_eq
  case started =>
    intro id mem
    rw [toReceiver] at mem
    obtain ⟨message, same, starts⟩ := agreed.handshake.message_to_receiver mem
    have awaited := starts id (Packet.message.inj same).symm
    rw [← receiver]
    exact agreed.wanted (SenderPc.late_of_awaits awaited).1 id (.inr (.inr awaited))
  case known =>
    rw [← sender, ← receiver]
    exact agreed.late
  case replied =>
    rw [toSender, toReceiver, ← sender, ← receiver]
    exact fun _ connected => replied agreed closing connected
  case asked =>
    rw [toSender, toReceiver, ← sender, ← receiver]
    exact fun connected _ => asked agreed closing connected
  case oneWay =>
    intro action s' next
    obtain ⟨t', stepped, related'⟩ := related_step related agreed short next
    have shared' : t'.shared = s'.shared := congrArg State.shared related'.1
    have move : Move cfg t action t' := step_cases stepped
    rw [← shared, ← shared']
    exact one_way move

/-! ## Manifests whose length does not fit -/

theorem length_directories_le (manifest : Manifest) :
    (manifest.directories.map List.length).sum ≤
      (Packet.message (.manifest manifest)).encode.length := by
  have fields : (manifest.directories.map List.length).sum ≤
      (manifest.directories.map (bytesField 1)).flatten.length := by
    rw [List.length_flatten, List.map_map]
    exact List.sum_le_sum fun directory _ => Nat.le_of_lt (length_le_bytesField 1 directory)
  have inner : (manifest.directories.map (bytesField 1)).flatten.length ≤
      (manifestCodec.encode manifest).length := by
    simp only [manifestCodec, List.flatten_append, List.length_append]
    exact Nat.le_add_right _ _
  have outer := length_le_bytesField 1 (manifestCodec.encode manifest)
  have whole : (Packet.message (.manifest manifest)).encode =
      bytesField 1 (manifestCodec.encode manifest) := rfl
  rw [whole]
  omega

theorem short_of_isEmpty {manifest : Manifest} (empty : manifest.isEmpty = true) :
    (Packet.message (.manifest manifest)).encode.length < 2 ^ 32 := by
  obtain ⟨directories, files⟩ := manifest
  simp only [Manifest.isEmpty, Bool.and_eq_true, List.isEmpty_iff] at empty
  obtain ⟨noFiles, rfl⟩ := empty
  obtain rfl : files = ∅ := AList.ext noFiles
  decide

theorem read_wire {chan : Wire} {side : Side} {expected : Expected} {encoded left : Bytes}
    {cipher : StreamCipher}
    (read : (chan.ends side).cipher.readMessage (chan.ends side).inbox =
      some (encoded, left, cipher)) :
    ∃ chan', wire.read side expected chan = some (expected.decode encoded, chan') ∧
      chan'.ends side = ⟨cipher, left, (chan.ends side).written,
        (chan.ends side).received ++ [expected.decode encoded]⟩ ∧
      chan'.ends side.other = chan.ends side.other := by
  let there : End := ⟨cipher, left, (chan.ends side).written,
    (chan.ends side).received ++ [expected.decode encoded]⟩
  refine ⟨⟨fun at_ => if at_ = side then there else chan.ends at_⟩, ?_, if_pos rfl,
    if_neg side.other_ne⟩
  simp only [wire, read, Option.map_some]
  rfl

/-- Of a manifest that is too long the receiver reads a part, and its cipher stays behind. -/
theorem not_halfDuplex_of_long {crypto : Crypto} {s : State Wire}
    (start : (wired cfg crypto).init s)
    (long : 2 ^ 32 ≤ (Packet.message (.manifest cfg.manifest)).encode.length) :
    ∃ s', (wired cfg crypto).Reachable s' ∧ ¬ HalfDuplex cfg s' := by
  obtain ⟨disk, _, ⟨⟨keystream, offset, ends⟩, made, rfl⟩, rfl⟩ := id start
  let packet : Packet := .message (.manifest cfg.manifest)
  let chan := wire.write .sender packet (.fresh ⟨keystream, offset, ends⟩)
  have nonempty : cfg.manifest.isEmpty ≠ true := fun empty =>
    absurd (short_of_isEmpty empty) (Nat.not_lt.mpr long)
  -- the manifest is written
  obtain ⟨s₁, written, wrote, waits⟩ : ∃ s₁, (wired cfg crypto).step
      (initial cfg disk (.fresh ⟨keystream, offset, ends⟩)) .sender = some s₁ ∧ s₁.chan = chan ∧
        s₁.receiver = ⟨.awaitingManifest, ∅, true⟩ := by
    have stepped : (wired cfg crypto).step
        (initial cfg disk (.fresh ⟨keystream, offset, ends⟩)) .sender =
        if cfg.manifest.isEmpty then _ else some _ := rfl
    rw [stepped, if_neg nonempty]
    exact ⟨_, rfl, rfl, rfl⟩
  -- and a part of it is read
  obtain ⟨chan', read, atReceiver, atSender⟩ := @read_wire chan .receiver .message _ _ _
    (StreamCipher.readMessage_writeMessage_mod keystream offset ends packet.encode)
  obtain ⟨s₂, next, left⟩ : ∃ s₂, (wired cfg crypto).step s₁ (.receiver true) = some s₂ ∧
      s₂.chan = chan' := by
    have stepped : (wired cfg crypto).step s₁ (.receiver true) =
        if s₁.receiver.alive then receiverStep cfg wire true s₁ else none := rfl
    rw [stepped, waits, if_pos rfl]
    simp only [receiverStep, waits, wrote, read, Option.map_some]
    exact ⟨_, rfl, rfl⟩
  refine ⟨s₂, .step (.step (.init start) trivial written) trivial next, fun discipline => ?_⟩
  have aligned := discipline.aligned
  rw [left] at aligned
  have atSender : chan'.ends .sender = chan.ends .sender := atSender
  have idle : ∀ side, chan'.unread side = [] := by
    rintro (_ | _)
    · show (chan'.ends .receiver).written.drop _ = []
      rw [atReceiver]
      exact List.drop_nil
    · show (chan'.ends .sender).written.drop (chan'.ends .receiver).received.length = []
      rw [atSender, atReceiver]
      rfl
  have same := congrArg StreamCipher.offset (aligned idle)
  have ahead : (chan.ends .sender).cipher = ⟨keystream, offset + 4 + packet.encode.length, ends⟩ :=
    StreamCipher.writeMessage_cipher keystream offset ends packet.encode
  rw [atSender, atReceiver, ahead] at same
  have fits := Nat.mod_lt packet.encode.length (Nat.two_pow_pos 32)
  have same : offset + 4 + packet.encode.length = offset + 4 + packet.encode.length % 2 ^ 32 := same
  have long : 2 ^ 32 ≤ packet.encode.length := long
  omega

/-- A transfer of directories alone, without encryption. -/
def directoriesOnly (directories : List Bytes) : Config where
  manifest := ⟨directories, ∅⟩
  max := 1
  options := ⟨[], false, false, false⟩
  dirLen := fun _ => 0
  force := false
  crates := ⟨⟨fun _ _ _ _ => 0, fun _ => none⟩, fun bytes => bytes⟩

def noCrypto : Crypto := ⟨0, [], []⟩

theorem directoriesOnly_starts (directories : List Bytes) :
    (wired (directoriesOnly directories) noCrypto).init
      (initial (directoriesOnly directories) ⟨fun _ => none, fun _ => [], 0⟩
        (.fresh ⟨fun _ => 0, 0, none⟩)) :=
  ⟨_, _, ⟨_, rfl, rfl⟩, rfl⟩

/-- Distinct paths of `1024` bytes and more. -/
def longPaths (count : Nat) : List Bytes :=
  (List.range count).map fun i =>
    List.replicate 1024 97 ++ (Nat.toDigits 10 i).map fun digit => UInt8.ofNat digit.toNat

theorem length_longPaths (count : Nat) :
    count * 1024 ≤ ((longPaths count).map List.length).sum := by
  have each : ∀ length ∈ (longPaths count).map List.length, 1024 ≤ length := by
    intro length mem
    simp only [longPaths, List.map_map, List.mem_map, Function.comp_apply, List.length_append,
      List.length_replicate] at mem
    obtain ⟨i, -, rfl⟩ := mem
    exact Nat.le_add_right _ _
  have many : (longPaths count).length = count := by
    rw [longPaths, List.length_map, List.length_range]
  have whole := List.card_nsmul_le_sum _ _ each
  rwa [List.length_map, many] at whole

theorem broken_of_long {directories : List Bytes}
    (long : 2 ^ 32 ≤ (directories.map List.length).sum) : ∃ s,
      (wired (directoriesOnly directories) noCrypto).Reachable s ∧
        ¬ HalfDuplex (directoriesOnly directories) s :=
  not_halfDuplex_of_long (directoriesOnly_starts directories)
    (Nat.le_trans long (length_directories_le ⟨directories, ∅⟩))

end Control

end Cccp
