import Cccp.Cipher
import Cccp.Control.Wire
import Cccp.Lib.Segments

/-!
# Conversations over a cipher stream

A `CipherStream` has one cipher for both directions: what one end writes moves its cipher on,
and so does reading it at the other end, first by the length of the message and then by its
body.  The stream is reliable and arrives in segments.

`converse_returns`: in a conversation in which each message is read before the next one is
written, every read returns what was written, the ciphers end at the same offset, and each
byte of the keystream is used for one byte only.
-/

namespace Cccp

namespace Control

/-! ## One end -/

/-- A type of messages, which `prost` decodes as it encoded them. -/
structure MessageType where
  Value : Type
  encode : Value → Bytes
  decode : Bytes → Option Value
  decode_encode : ∀ value, (encode value).length < 2 ^ 32 → decode (encode value) = some value

/-- The types of `items.proto` are such types. -/
def MessageType.ofCodec {M : Type} (codec : Protobuf.Codec M) (lawful : codec.Lawful) :
    MessageType where
  Value := M
  encode := codec.encode
  decode := codec.decode
  decode_encode value short := lawful value (Nat.lt_trans short (by decide))

/-- `uses` only records onto which bytes the keystream was put, and at which offsets.  As in
`StreamCipher.writeMessage`, nothing asks for the end of the keystream. -/
structure CipherStream where
  cipher : StreamCipher
  inbox : List Bytes
  uses : List (UInt8 × Nat)

namespace CipherStream

/-- `CipherStream::new`, or `none` where `make_cipher` makes no cipher. -/
def new (crates : CipherCrates) (crypto : Crypto) : Option CipherStream :=
  match crypto.makeCipher crates with
  | .made cipher => some ⟨cipher, [], []⟩
  | .unknownEnumValue => none
  | .panicked => none

def writeAll (stream : CipherStream) (buf : Bytes) : Bytes × CipherStream :=
  let applied := stream.cipher.applyKeystream buf
  (applied.1,
    { stream with
      cipher := applied.2
      uses := stream.uses ++ buf.zipIdx stream.cipher.offset })

def writeU32 (stream : CipherStream) (value : UInt32) : Bytes × CipherStream :=
  stream.writeAll (Bytes.toBE 4 value.toNat)

/-- `CipherStream::write_message`: what goes on the stream. -/
def writeMessage (stream : CipherStream) (type : MessageType) (message : type.Value) :
    Bytes × CipherStream :=
  let buffer := type.encode message
  let len := stream.writeU32 (UInt32.ofNat buffer.length)
  let body := len.2.writeAll buffer
  (len.1 ++ body.1, body.2)

/-- `CipherStream::read_exact`, or `none` while it waits. -/
def readExact (stream : CipherStream) (count : Nat) : Option (Bytes × CipherStream) :=
  (Segments.readExact count stream.inbox).map fun read =>
    let applied := stream.cipher.applyKeystream read.1
    (applied.1,
      { cipher := applied.2
        inbox := read.2
        uses := stream.uses ++ applied.1.zipIdx stream.cipher.offset })

def readU32 (stream : CipherStream) : Option (UInt32 × CipherStream) :=
  (stream.readExact 4).map fun buf => (UInt32.ofNat (Bytes.fromBE buf.1), buf.2)

/-- `CipherStream::read_message`: the message, if it can be decoded. -/
def readMessage (stream : CipherStream) (type : MessageType) :
    Option (Option type.Value × CipherStream) :=
  stream.readU32.bind fun len =>
    (len.2.readExact len.1.toNat).map fun buffer => (type.decode buffer.1, buffer.2)

/-- The bytes arrive in segments. -/
def deliver (stream : CipherStream) (segments : List Bytes) : CipherStream :=
  { stream with inbox := stream.inbox ++ segments }

end CipherStream

/-! ## Both ends -/

/-- One line of a script: a message, which end writes it, and how its bytes are cut into
segments on their way. -/
structure Line where
  writer : Side
  type : MessageType
  message : type.Value
  cuts : List Nat

def Line.encoded (line : Line) : Bytes := line.type.encode line.message

/-- What came of reading a line. -/
structure Reading where
  line : Line
  result : Option line.type.Value

structure Conversation where
  ends : Side → CipherStream

namespace Conversation

/-- One end writes a line and the other end reads it, or waits for ever. -/
def say (conversation : Conversation) (line : Line) : Option (Reading × Conversation) :=
  let written := (conversation.ends line.writer).writeMessage line.type line.message
  let reader := (conversation.ends line.writer.other).deliver (Segments.cut line.cuts written.1)
  (reader.readMessage line.type).map fun read =>
    (⟨line, read.1⟩, ⟨fun side => if side = line.writer then written.2 else read.2⟩)

def converse : Conversation → List Line → Option (List Reading × Conversation)
  | conversation, [] => some ([], conversation)
  | conversation, line :: rest =>
      (conversation.say line).bind fun said =>
        (said.2.converse rest).map fun readings => (said.1 :: readings.1, readings.2)

end Conversation

/-! ## What a message uses of the keystream -/

/-- What is encrypted of a message: its length and its body. -/
def plaintext (encoded : Bytes) : Bytes := Bytes.toBE 4 encoded.length ++ encoded

/-- What is encrypted of a script. -/
def transcript (script : List Line) : Bytes := script.flatMap fun line => plaintext line.encoded

/-- An end that has used the keystream for the bytes of `plain`, from its start on, and to
which the bytes of `pending` are on their way. -/
structure At (keystream : Keystream) (plain pending : Bytes) (stream : CipherStream) : Prop where
  keystream_eq : stream.cipher.keystream = keystream
  offset_eq : stream.cipher.offset = plain.length
  flatten_inbox : stream.inbox.flatten = pending
  uses_eq : stream.uses = plain.zipIdx

namespace At

variable {keystream : Keystream} {plain pending : Bytes} {stream : CipherStream}

theorem uses_append (at_ : At keystream plain pending stream) (bytes : Bytes) :
    stream.uses ++ bytes.zipIdx stream.cipher.offset = (plain ++ bytes).zipIdx := by
  rw [at_.uses_eq, at_.offset_eq, List.zipIdx_append, Nat.zero_add]

theorem offset_append (at_ : At keystream plain pending stream) (bytes : Bytes) :
    (stream.cipher.applyKeystream bytes).2.offset = (plain ++ bytes).length := by
  rw [StreamCipher.applyKeystream_offset, at_.offset_eq, List.length_append]

theorem writeAll (at_ : At keystream plain pending stream) (buf : Bytes) :
    (stream.writeAll buf).1 = keystream.xorAt plain.length buf ∧
      At keystream (plain ++ buf) pending (stream.writeAll buf).2 := by
  refine ⟨?_, at_.keystream_eq, at_.offset_append buf, at_.flatten_inbox, at_.uses_append buf⟩
  rw [CipherStream.writeAll, ← at_.keystream_eq, ← at_.offset_eq]
  rfl

theorem deliver (at_ : At keystream plain pending stream) (segments : List Bytes) :
    At keystream plain (pending ++ segments.flatten) (stream.deliver segments) := by
  refine ⟨at_.keystream_eq, at_.offset_eq, ?_, at_.uses_eq⟩
  rw [CipherStream.deliver, List.flatten_append, at_.flatten_inbox]

/-- What was encrypted at the offset the cipher is at is read as it was. -/
theorem readExact {buf : Bytes}
    (at_ : At keystream plain (keystream.xorAt plain.length buf ++ pending) stream) :
    ∃ next, stream.readExact buf.length = some (buf, next) ∧
      At keystream (plain ++ buf) pending next := by
  have length := keystream.length_xorAt plain.length buf
  have enough : buf.length ≤ stream.inbox.flatten.length := by
    rw [at_.flatten_inbox, List.length_append, length]
    exact Nat.le_add_right _ _
  obtain ⟨inbox, read, left⟩ := Segments.readExact_eq_take enough
  rw [at_.flatten_inbox, List.take_left' length] at read
  rw [at_.flatten_inbox, List.drop_left' length] at left
  refine ⟨⟨(stream.cipher.applyKeystream buf).2, inbox,
    stream.uses ++ buf.zipIdx stream.cipher.offset⟩, ?_,
    at_.keystream_eq, at_.offset_append buf, left, at_.uses_append buf⟩
  rw [CipherStream.readExact, read]
  simp only [StreamCipher.applyKeystream, Option.map_some, at_.keystream_eq, at_.offset_eq,
    Keystream.xorAt_xorAt, Keystream.length_xorAt]

theorem readU32 {value : UInt32}
    (at_ : At keystream plain
      (keystream.xorAt plain.length (Bytes.toBE 4 value.toNat) ++ pending) stream) :
    ∃ next, stream.readU32 = some (value, next) ∧
      At keystream (plain ++ Bytes.toBE 4 value.toNat) pending next := by
  obtain ⟨next, read, next_at⟩ := at_.readExact
  rw [Bytes.length_toBE] at read
  refine ⟨next, ?_, next_at⟩
  rw [CipherStream.readU32, read, Option.map_some, Bytes.fromBE_toBE_of_lt (UInt32.toNat_lt _),
    UInt32.ofNat_toNat]

variable {type : MessageType} {message : type.Value}

theorem toNat_ofNat_length {encoded : Bytes} (short : encoded.length < 2 ^ 32) :
    (UInt32.ofNat encoded.length).toNat = encoded.length := by
  rw [UInt32.toNat_ofNat', Nat.mod_eq_of_lt short]

/-- A message is written in two steps: its length, and its body. -/
theorem writeMessage (at_ : At keystream plain pending stream)
    (short : (type.encode message).length < 2 ^ 32) :
    (stream.writeMessage type message).1 =
        keystream.xorAt plain.length (plaintext (type.encode message)) ∧
      At keystream (plain ++ plaintext (type.encode message)) pending
        (stream.writeMessage type message).2 := by
  obtain ⟨len, len_at⟩ :=
    at_.writeAll (Bytes.toBE 4 (UInt32.ofNat (type.encode message).length).toNat)
  obtain ⟨body, body_at⟩ := len_at.writeAll (type.encode message)
  rw [toNat_ofNat_length short] at len len_at body body_at
  rw [List.append_assoc] at body_at
  refine ⟨?_, ?_⟩
  · rw [CipherStream.writeMessage, CipherStream.writeU32, toNat_ofNat_length short, len, body,
      plaintext, Keystream.xorAt_append, List.length_append]
  · rw [CipherStream.writeMessage, CipherStream.writeU32, toNat_ofNat_length short]
    exact body_at

/-- And it is read in the same two steps. -/
theorem readMessage (short : (type.encode message).length < 2 ^ 32)
    (at_ : At keystream plain
      (keystream.xorAt plain.length (plaintext (type.encode message))) stream) :
    ∃ next, stream.readMessage type = some (some message, next) ∧
      At keystream (plain ++ plaintext (type.encode message)) [] next := by
  have count := toNat_ofNat_length short
  rw [plaintext, Keystream.xorAt_append, ← count] at at_
  obtain ⟨afterLen, len, len_at⟩ := at_.readU32
  rw [← List.append_nil (Keystream.xorAt _ _ (type.encode message)), ← List.length_append] at len_at
  obtain ⟨next, body, next_at⟩ := len_at.readExact
  rw [count, List.append_assoc] at next_at
  refine ⟨next, ?_, next_at⟩
  rw [CipherStream.readMessage, len, Option.bind_some, count, body, Option.map_some,
    type.decode_encode message short]

end At

theorem at_new {crates : CipherCrates} {crypto : Crypto} {stream : CipherStream}
    (new : CipherStream.new crates crypto = some stream) :
    At stream.cipher.keystream [] [] stream := by
  unfold CipherStream.new at new
  split at new
  next made =>
    cases new
    exact ⟨rfl, congrArg StreamCipher.offset (Crypto.eq_of_made made), rfl, rfl⟩
  next => cases new
  next => cases new

/-! ## The conversation -/

/-- Nothing is on its way, and both ends have used the keystream for the same bytes. -/
def Synced (keystream : Keystream) (plain : Bytes) (conversation : Conversation) : Prop :=
  ∀ side, At keystream plain [] (conversation.ends side)

variable {keystream : Keystream} {plain : Bytes} {conversation : Conversation}
  {stream : CipherStream}

/-- A line is read as it was written. -/
theorem Synced.say (synced : Synced keystream plain conversation) {line : Line}
    (short : line.encoded.length < 2 ^ 32) :
    ∃ next, conversation.say line = some (⟨line, some line.message⟩, next) ∧
      Synced keystream (plain ++ plaintext line.encoded) next := by
  obtain ⟨bytes, written_at⟩ := (synced line.writer).writeMessage short
  have joined := (Segments.flatten_cut line.cuts _).trans bytes
  have arrived := (synced line.writer.other).deliver (Segments.cut line.cuts
    ((conversation.ends line.writer).writeMessage line.type line.message).1)
  rw [List.nil_append, joined] at arrived
  obtain ⟨reader, read, reader_at⟩ := At.readMessage short arrived
  refine ⟨_, congrArg (Option.map _) read, fun side => ?_⟩
  change At _ _ _ (if side = line.writer then _ else reader)
  split
  next => exact written_at
  next => exact reader_at

/-- Every line of a script is read as it was written. -/
theorem Synced.converse (synced : Synced keystream plain conversation) {script : List Line}
    (short : ∀ line ∈ script, line.encoded.length < 2 ^ 32) :
    ∃ last, conversation.converse script =
        some (script.map fun line => ⟨line, some line.message⟩, last) ∧
      Synced keystream (plain ++ transcript script) last := by
  induction script generalizing plain conversation with
  | nil => exact ⟨conversation, rfl, by rwa [transcript, List.flatMap_nil, List.append_nil]⟩
  | cons line rest ih =>
      obtain ⟨next, said, nextSynced⟩ := synced.say (short line List.mem_cons_self)
      obtain ⟨last, readings, lastSynced⟩ :=
        ih nextSynced fun other mem => short other (List.mem_cons_of_mem _ mem)
      refine ⟨last, ?_, ?_⟩
      · rw [Conversation.converse, said, Option.bind_some, readings]
        rfl
      · rwa [transcript, List.flatMap_cons, ← List.append_assoc]

/-- **A conversation is understood.**  In every script of short messages each read returns
the message that was written, both ciphers end at the same offset, the keystream has been put
onto the bytes of the script one after the other at both ends, and no offset of it onto two
different bytes. -/
theorem converse_returns {crates : CipherCrates} {crypto : Crypto}
    (new : CipherStream.new crates crypto = some stream) {script : List Line}
    (short : ∀ line ∈ script, line.encoded.length < 2 ^ 32) :
    ∃ last, Conversation.converse ⟨fun _ => stream⟩ script =
        some (script.map fun line => ⟨line, some line.message⟩, last) ∧
      (last.ends .sender).cipher.offset = (last.ends .receiver).cipher.offset ∧
      (∀ side, (last.ends side).uses = (transcript script).zipIdx) ∧
      ∀ side side' offset byte byte', (byte, offset) ∈ (last.ends side).uses →
        (byte', offset) ∈ (last.ends side').uses → byte = byte' := by
  have synced : Synced stream.cipher.keystream [] ⟨fun _ => stream⟩ := fun _ => at_new new
  obtain ⟨last, readings, synced⟩ := synced.converse short
  rw [List.nil_append] at synced
  refine ⟨last, readings, ?_, fun side => (synced side).uses_eq,
    fun side side' offset byte byte' use use' => ?_⟩
  · rw [(synced .sender).offset_eq, (synced .receiver).offset_eq]
  · rw [(synced side).uses_eq] at use
    rw [(synced side').uses_eq] at use'
    have here := List.mem_zipIdx_iff_getElem?.mp use
    have here' := List.mem_zipIdx_iff_getElem?.mp use'
    exact Option.some.inj (here.symm.trans here')

/-- The sender writes a `Start` of which one byte arrives at first, and the receiver writes a
message without any bytes. -/
theorem converse_returns_two_lines :
    let type := MessageType.ofCodec messageCodec messageCodec_lawful
    let start : Line := ⟨.sender, type, .start 1, [0]⟩
    let unset : Line := ⟨.receiver, type, .unset, []⟩
    ∃ last, Conversation.converse ⟨fun _ => ⟨⟨fun _ => 0, 0, none⟩, [], []⟩⟩ [start, unset] =
        some ([⟨start, some (.start 1)⟩, ⟨unset, some .unset⟩], last) ∧
      (last.ends .sender).cipher.offset = (last.ends .receiver).cipher.offset ∧
      ∀ side, (last.ends side).uses = (transcript [start, unset]).zipIdx := by
  intro type start unset
  have short : ∀ line ∈ [start, unset], line.encoded.length < 2 ^ 32 := by
    intro line mem
    rcases List.mem_pair.mp mem with rfl | rfl
    · decide
    · decide
  obtain ⟨last, readings, offsets, uses, -⟩ :=
    @converse_returns _ ⟨fun _ _ _ _ => 0, fun _ => none⟩ ⟨0, [], []⟩ rfl [start, unset] short
  exact ⟨last, readings, offsets, uses⟩

end Control

end Cccp
