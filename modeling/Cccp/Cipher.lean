import Cccp.Items
import Cccp.Lib.Keystream

/-!
# Ciphers and encrypted message streams

`Crypto::make_cipher` chooses a cipher for the key and iv of a `Crypto`, and
`CipherStream` writes and reads length-prefixed messages with one cipher for both
directions.  The cipher crates are a parameter: a keystream for each cipher, key and
iv, and how long it lasts.
-/

namespace Cccp

/-! ## Making a cipher -/

/-- `Cipher::key_length`. -/
def Cipher.keyLength : Cipher → Nat
  | none => 0
  | aes128 => 16
  | aes192 => 24
  | chacha20 | chacha8 | aes256 => 32

/-- `Cipher::iv_length`. -/
def Cipher.ivLength : Cipher → Nat
  | none => 0
  | chacha20 | chacha8 => 12
  | aes256 | aes128 | aes192 => 16

/-- The numbers `items.proto` gives the ciphers. -/
def Cipher.ofNumber (number : Int32) : Option Cipher :=
  if number = 0 then some none
  else if number = 1 then some chacha8
  else if number = 2 then some aes128
  else if number = 3 then some aes192
  else if number = 4 then some chacha20
  else if number = 5 then some aes256
  else Option.none

/-- The keystreams of the cipher crates, and how many bytes they have where they end. -/
structure CipherCrates where
  keystream : Cipher → Bytes → Bytes → Keystream
  ends : Cipher → Option Nat

/-- What comes of `make_cipher`: a key or iv that is too short makes a slice panic. -/
inductive MadeCipher where
  | made (cipher : StreamCipher)
  | unknownEnumValue
  | panicked

/-- `Crypto::make_cipher`.  `NoCipher` leaves its data as it is, which is a keystream of
zeros without an end. -/
def Crypto.makeCipher (crates : CipherCrates) (crypto : Crypto) : MadeCipher :=
  match Cipher.ofNumber crypto.cipher with
  | none => .unknownEnumValue
  | some cipher =>
      if crypto.key.length < cipher.keyLength ∨ crypto.iv.length < cipher.ivLength then
        .panicked
      else
        let key := crypto.key.take cipher.keyLength
        let iv := crypto.iv.take cipher.ivLength
        .made
          ⟨if cipher = .none then fun _ => 0 else crates.keystream cipher key iv, 0,
            if cipher = .none then Option.none else crates.ends cipher⟩

/-- The cipher is unknown, or key and iv are long enough for it. -/
def Crypto.Sliceable (crypto : Crypto) : Prop :=
  ∀ cipher, Cipher.ofNumber crypto.cipher = some cipher →
    cipher.keyLength ≤ crypto.key.length ∧ cipher.ivLength ≤ crypto.iv.length

theorem Crypto.makeCipher_panicked_iff {crates : CipherCrates} {crypto : Crypto} :
    crypto.makeCipher crates = .panicked ↔ ¬ crypto.Sliceable := by
  unfold Crypto.makeCipher Crypto.Sliceable
  cases number : Cipher.ofNumber crypto.cipher with
  | none => simp
  | some cipher =>
      simp only [Option.some.injEq, forall_eq']
      split
      next short =>
        simp only [true_iff]
        omega
      next long =>
        simp only [reduceCtorEq, false_iff]
        omega

/-- A new cipher is at the start of its keystream. -/
theorem Crypto.eq_of_made {crates : CipherCrates} {crypto : Crypto} {cipher : StreamCipher}
    (made : crypto.makeCipher crates = .made cipher) :
    cipher = ⟨cipher.keystream, 0, cipher.ends⟩ := by
  unfold Crypto.makeCipher at made
  split at made
  next => cases made
  next =>
    split at made
    next => cases made
    next =>
      cases made
      rfl

/-- The keystream for a file, if it ends, reaches from its start index to its end. -/
def Crypto.Lasts (crates : CipherCrates) (crypto : Crypto) (startIndex size : UInt64) : Prop :=
  ∀ cipher n, crypto.makeCipher crates = .made cipher → cipher.ends = some n →
    startIndex ≤ size ∧ size.toNat ≤ n

/-! ## Messages on a stream -/

namespace StreamCipher

/-- `CipherStream::write_message`: the bytes that go on the stream for an encoded message.
Its length is cast to a `u32`.  The streams of messages are taken not to come to the end of
their keystream. -/
def writeMessage (cipher : StreamCipher) (encoded : Bytes) : Bytes × StreamCipher :=
  let len := cipher.applyKeystream (Bytes.toBE 4 (UInt32.ofNat encoded.length).toNat)
  let body := len.2.applyKeystream encoded
  (len.1 ++ body.1, body.2)

/-- `CipherStream::read_message` up to the decoding, or `none` while it waits for more:
the bytes to decode, and what is left on the stream. -/
def readMessage (cipher : StreamCipher) (stream : Bytes) : Option (Bytes × Bytes × StreamCipher) :=
  if stream.length < 4 then none
  else
    let len := cipher.applyKeystream (stream.take 4)
    let count := Bytes.fromBE len.1
    if (stream.drop 4).length < count then none
    else
      let body := len.2.applyKeystream ((stream.drop 4).take count)
      some (body.1, (stream.drop 4).drop count, body.2)

theorem readMessage_nil (cipher : StreamCipher) : cipher.readMessage [] = none := rfl

variable (keystream : Keystream) (offset : Nat) (ends : Option Nat) (encoded : Bytes)

/-- The two ends of a stream move on by the same amount. -/
theorem writeMessage_cipher : (writeMessage ⟨keystream, offset, ends⟩ encoded).2 =
    ⟨keystream, offset + 4 + encoded.length, ends⟩ := by
  simp only [writeMessage, applyKeystream, Bytes.length_toBE]

/-- Of a message whose length does not fit a `u32`, only a part is read. -/
theorem readMessage_writeMessage_mod :
    readMessage ⟨keystream, offset, ends⟩ (writeMessage ⟨keystream, offset, ends⟩ encoded).1 =
      some (encoded.take (encoded.length % 2 ^ 32),
        (keystream.xorAt (offset + 4) encoded).drop (encoded.length % 2 ^ 32),
        ⟨keystream, offset + 4 + encoded.length % 2 ^ 32, ends⟩) := by
  have header : (keystream.xorAt offset
      (Bytes.toBE 4 (UInt32.ofNat encoded.length).toNat)).length = 4 := by
    rw [Keystream.length_xorAt, Bytes.length_toBE]
  have count : Bytes.fromBE (Bytes.toBE 4 (UInt32.ofNat encoded.length).toNat) =
      encoded.length % 2 ^ 32 := by
    rw [Bytes.fromBE_toBE_of_lt (UInt32.toNat_lt _), UInt32.toNat_ofNat']
  have part : encoded.length % 2 ^ 32 ≤ encoded.length := Nat.mod_le _ _
  simp only [readMessage, writeMessage, applyKeystream, Bytes.length_toBE]
  rw [List.take_left' header, List.drop_left' header, Keystream.xorAt_xorAt, count, if_neg, if_neg,
    Keystream.length_xorAt, Bytes.length_toBE, Keystream.take_xorAt, Keystream.xorAt_xorAt,
    Keystream.length_xorAt, List.length_take, Nat.min_eq_left part]
  · rw [Keystream.length_xorAt]
    omega
  · rw [List.length_append, header]
    omega

/-- A shorter message is read as it was written. -/
theorem readMessage_writeMessage (short : encoded.length < 2 ^ 32) :
    readMessage ⟨keystream, offset, ends⟩ (writeMessage ⟨keystream, offset, ends⟩ encoded).1 =
      some (encoded, [], (writeMessage ⟨keystream, offset, ends⟩ encoded).2) := by
  rw [readMessage_writeMessage_mod, Nat.mod_eq_of_lt short, List.take_length,
    List.drop_of_length_le (by rw [Keystream.length_xorAt]), writeMessage_cipher]

end StreamCipher

end Cccp
