import Cccp.Lib.Bytes
import Mathlib.Tactic.Ring

/-!
# The protobuf wire format

Varints, field keys and the message loop of a protobuf decoder, over byte
strings.  A `Codec` gives the fields of one message type: how a message is
encoded and how one decoded field is merged into it.  `Codec.decode` is the
decoder's loop: read a key, merge its field, until nothing is left.

* `decodeVarint_encodeVarint` and `decodeVarint_proper`: a varint is read back,
  and no proper prefix of one is a varint.
* `Codec.decodeFrom_cons` unfolds the loop by one field, whatever the fuel.
* `Codec.decodeFrom_varintField`, `decodeFrom_bytesField` and
  `decodeFrom_messageField` run the loop over one encoded field; round trips of
  whole messages chain them.
-/

namespace Cccp.Protobuf

universe u

/-! ## Varints -/

/-- Groups of seven bits, lowest first, the high bit of a byte set when another
byte follows; at most `fuel` bytes. -/
def encodeVarintLoop : Nat → Nat → Bytes
  | 0, _ => []
  | fuel + 1, value =>
      if value < 128 then [UInt8.ofNat value]
      else UInt8.ofNat (value % 128 + 128) :: encodeVarintLoop fuel (value / 128)

/-- A `u64` takes at most ten bytes. -/
def encodeVarint (value : Nat) : Bytes :=
  encodeVarintLoop 10 value

/-- Read a varint of at most `fuel` bytes.  The tenth byte holds the last bit of a
`u64`, so a value of two or more there overflows. -/
def decodeVarintLoop : Nat → Bytes → Option (Nat × Bytes)
  | 0, _ => none
  | _ + 1, [] => none
  | fuel + 1, byte :: rest =>
      if byte.toNat < 128 then
        if fuel = 0 ∧ 2 ≤ byte.toNat then none else some (byte.toNat, rest)
      else
        (decodeVarintLoop fuel rest).map fun r => (byte.toNat - 128 + 128 * r.1, r.2)

def decodeVarint (bytes : Bytes) : Option (Nat × Bytes) :=
  decodeVarintLoop 10 bytes

theorem toNat_ofNat_of_lt {n : Nat} (small : n < 256) : (UInt8.ofNat n).toNat = n := by
  rw [UInt8.toNat_ofNat']
  exact Nat.mod_eq_of_lt small

theorem decodeVarintLoop_encodeVarintLoop (fuel value : Nat) (rest : Bytes)
    (fits : value < 2 * 128 ^ fuel) :
    decodeVarintLoop (fuel + 1) (encodeVarintLoop (fuel + 1) value ++ rest) =
      some (value, rest) := by
  induction fuel generalizing value with
  | zero =>
      have small : value < 128 := by omega
      have byte := toNat_ofNat_of_lt (n := value) (by omega)
      have bit : ¬ (2 ≤ value) := by omega
      rw [encodeVarintLoop, if_pos small]
      simp only [List.cons_append, List.nil_append, decodeVarintLoop, byte, small,
        if_true, bit, and_false, if_false]
  | succ fuel ih =>
      by_cases small : value < 128
      · have byte := toNat_ofNat_of_lt (n := value) (by omega)
        rw [encodeVarintLoop, if_pos small]
        simp [decodeVarintLoop, byte, small]
      · have byte := toNat_ofNat_of_lt (n := value % 128 + 128) (by omega)
        have high : ¬ (value % 128 + 128 < 128) := by omega
        have tail : value / 128 < 2 * 128 ^ fuel := by
          rw [Nat.div_lt_iff_lt_mul (by decide)]
          calc value < 2 * 128 ^ (fuel + 1) := fits
            _ = 2 * 128 ^ fuel * 128 := by ring
        rw [encodeVarintLoop, if_neg small, List.cons_append, decodeVarintLoop, byte,
          if_neg high, ih _ tail]
        simp only [Option.map_some, Option.some.injEq, Prod.mk.injEq, and_true]
        omega

/-- A varint is read back, with whatever follows it left over. -/
theorem decodeVarint_encodeVarint {value : Nat} (fits : value < 2 ^ 64) (rest : Bytes) :
    decodeVarint (encodeVarint value ++ rest) = some (value, rest) :=
  decodeVarintLoop_encodeVarintLoop 9 value rest (by omega)

theorem decodeVarintLoop_proper (fuel value : Nat) (front : Bytes)
    (before : front <+: encodeVarintLoop fuel value)
    (proper : front.length < (encodeVarintLoop fuel value).length) :
    decodeVarintLoop fuel front = none := by
  induction fuel generalizing value front with
  | zero => rfl
  | succ fuel ih =>
      cases front with
      | nil => rfl
      | cons byte front =>
          rw [encodeVarintLoop] at before proper
          split at before
          next small =>
            rw [if_pos small] at proper
            simp at proper
          next large =>
            rw [if_neg large] at proper
            rw [List.cons_prefix_cons] at before
            obtain ⟨rfl, before⟩ := before
            have byte := toNat_ofNat_of_lt (n := value % 128 + 128) (by omega)
            have high : ¬ (value % 128 + 128 < 128) := by omega
            simp only [List.length_cons, Nat.add_lt_add_iff_right] at proper
            rw [decodeVarintLoop, byte, if_neg high, ih _ _ before proper]
            rfl

/-- No proper prefix of a varint is a varint. -/
theorem decodeVarint_proper {value : Nat} {front : Bytes}
    (before : front <+: encodeVarint value)
    (proper : front.length < (encodeVarint value).length) :
    decodeVarint front = none :=
  decodeVarintLoop_proper 10 value front before proper

theorem encodeVarint_ne_nil (value : Nat) : encodeVarint value ≠ [] := by
  rw [encodeVarint, encodeVarintLoop]
  split <;> simp

theorem length_encodeVarint_pos (value : Nat) : 0 < (encodeVarint value).length :=
  List.length_pos_of_ne_nil (encodeVarint_ne_nil value)

theorem length_encodeVarintLoop_le (fuel value : Nat) :
    (encodeVarintLoop fuel value).length ≤ fuel := by
  induction fuel generalizing value with
  | zero => exact Nat.le_refl _
  | succ fuel ih =>
      unfold encodeVarintLoop
      split
      next => exact Nat.succ_le_succ (Nat.zero_le _)
      next => exact Nat.succ_le_succ (ih _)

theorem length_encodeVarintLoop_mono (fuel : Nat) {value value' : Nat} (le : value ≤ value') :
    (encodeVarintLoop fuel value).length ≤ (encodeVarintLoop fuel value').length := by
  induction fuel generalizing value value' with
  | zero => exact Nat.le_refl _
  | succ fuel ih =>
      rw [encodeVarintLoop, encodeVarintLoop]
      split
      next =>
        split
        next => exact Nat.le_refl _
        next => exact Nat.succ_le_succ (Nat.zero_le _)
      next large =>
        rw [if_neg (by omega)]
        exact Nat.succ_le_succ (ih (Nat.div_le_div_right le))

theorem length_encodeVarint_le (value : Nat) : (encodeVarint value).length ≤ 10 :=
  length_encodeVarintLoop_le 10 value

theorem encodeVarint_of_lt {value : Nat} (small : value < 128) :
    encodeVarint value = [UInt8.ofNat value] := by
  rw [encodeVarint, encodeVarintLoop, if_pos small]

/-! ## Readers that consume their input -/

/-- A reader never leaves more bytes than it was given. -/
def Shrinks {α : Type u} (reader : Bytes → Option (α × Bytes)) : Prop :=
  ∀ bytes value rest, reader bytes = some (value, rest) → rest.length ≤ bytes.length

theorem Shrinks.map {α β : Type u} {reader : Bytes → Option (α × Bytes)}
    (shrinks : Shrinks reader) (f : α → β) :
    Shrinks fun bytes => (reader bytes).map fun r => (f r.1, r.2) := by
  intro bytes value rest h
  obtain ⟨⟨a, rest'⟩, read, eq⟩ := Option.map_eq_some_iff.mp h
  cases eq
  exact shrinks _ _ _ read

theorem decodeVarintLoop_lt {fuel : Nat} {bytes rest : Bytes} {value : Nat}
    (h : decodeVarintLoop fuel bytes = some (value, rest)) :
    rest.length < bytes.length := by
  induction fuel generalizing bytes value rest with
  | zero => cases h
  | succ fuel ih =>
      cases bytes with
      | nil => cases h
      | cons byte tail =>
          unfold decodeVarintLoop at h
          split at h
          · split at h
            · cases h
            · cases h
              simp
          · obtain ⟨⟨v, rest'⟩, read, eq⟩ := Option.map_eq_some_iff.mp h
            cases eq
            have := ih read
            simp only [List.length_cons]
            omega

theorem decodeVarint_lt {bytes rest : Bytes} {value : Nat}
    (h : decodeVarint bytes = some (value, rest)) : rest.length < bytes.length :=
  decodeVarintLoop_lt h

/-! ## Keys -/

inductive WireType where
  | varint
  | sixtyFourBit
  | lengthDelimited
  | startGroup
  | endGroup
  | thirtyTwoBit
  deriving DecidableEq, Repr

def WireType.code : WireType → Nat
  | .varint => 0
  | .sixtyFourBit => 1
  | .lengthDelimited => 2
  | .startGroup => 3
  | .endGroup => 4
  | .thirtyTwoBit => 5

def WireType.ofCode : Nat → Option WireType
  | 0 => some .varint
  | 1 => some .sixtyFourBit
  | 2 => some .lengthDelimited
  | 3 => some .startGroup
  | 4 => some .endGroup
  | 5 => some .thirtyTwoBit
  | _ => none

theorem WireType.ofCode_code (wire : WireType) : ofCode wire.code = some wire := by
  cases wire <;> rfl

theorem WireType.code_lt (wire : WireType) : wire.code < 8 := by
  cases wire <;> decide

/-- A decoded field key: the field's tag, its wire type, and the bytes after it. -/
structure Key where
  tag : Nat
  wire : WireType
  rest : Bytes

def encodeKey (tag : Nat) (wire : WireType) : Bytes :=
  encodeVarint (tag * 8 + wire.code)

/-- A key is a `u32` varint with a known wire type and a tag other than zero. -/
def decodeKey (bytes : Bytes) : Option Key :=
  (decodeVarint bytes).bind fun r =>
    if r.1 < 2 ^ 32 then
      (WireType.ofCode (r.1 % 8)).bind fun wire =>
        if r.1 / 8 = 0 then none else some ⟨r.1 / 8, wire, r.2⟩
    else none

theorem decodeKey_encodeKey {tag : Nat} (positive : 0 < tag) (small : tag < 2 ^ 29)
    (wire : WireType) (rest : Bytes) :
    decodeKey (encodeKey tag wire ++ rest) = some ⟨tag, wire, rest⟩ := by
  have low := wire.code_lt
  have key : tag * 8 + wire.code < 2 ^ 32 := by omega
  have code : (tag * 8 + wire.code) % 8 = wire.code := by omega
  have quotient : (tag * 8 + wire.code) / 8 = tag := by omega
  rw [decodeKey, encodeKey, decodeVarint_encodeVarint (by omega)]
  simp only [Option.bind_some, if_pos key, code, WireType.ofCode_code, quotient,
    if_neg (Nat.ne_of_gt positive)]

theorem decodeKey_lt {bytes : Bytes} {key : Key} (h : decodeKey bytes = some key) :
    key.rest.length < bytes.length := by
  obtain ⟨⟨value, rest⟩, read, h⟩ := Option.bind_eq_some_iff.mp h
  have shorter := decodeVarint_lt read
  split at h
  · obtain ⟨wire, -, h⟩ := Option.bind_eq_some_iff.mp h
    split at h
    · cases h
    · cases h
      exact shorter
  · cases h

theorem encodeKey_ne_nil (tag : Nat) (wire : WireType) : encodeKey tag wire ≠ [] :=
  encodeVarint_ne_nil _

/-! ## Field values -/

/-- Split off `n` bytes, if there are as many. -/
def takeBytes (n : Nat) (bytes : Bytes) : Option (Bytes × Bytes) :=
  if n ≤ bytes.length then some (bytes.take n, bytes.drop n) else none

theorem takeBytes_append (value rest : Bytes) :
    takeBytes value.length (value ++ rest) = some (value, rest) := by
  simp [takeBytes]

theorem takeBytes_shrinks (n : Nat) : Shrinks (takeBytes n) := by
  intro bytes value rest h
  unfold takeBytes at h
  split at h
  · cases h
    simp
  · cases h

/-- Merge a scalar field: the wire type must be a varint. -/
def mergeVarint (wire : WireType) (bytes : Bytes) : Option (Nat × Bytes) :=
  if wire = .varint then decodeVarint bytes else none

/-- Merge a length-delimited field: its bytes, and what follows. -/
def mergeBytes (wire : WireType) (bytes : Bytes) : Option (Bytes × Bytes) :=
  if wire = .lengthDelimited then
    (decodeVarint bytes).bind fun r => takeBytes r.1 r.2
  else none

theorem mergeVarint_shrinks (wire : WireType) : Shrinks (mergeVarint wire) := by
  intro bytes value rest h
  unfold mergeVarint at h
  split at h
  · exact Nat.le_of_lt (decodeVarint_lt h)
  · cases h

theorem mergeBytes_shrinks (wire : WireType) : Shrinks (mergeBytes wire) := by
  intro bytes value rest h
  unfold mergeBytes at h
  split at h
  · obtain ⟨⟨n, tail⟩, read, h⟩ := Option.bind_eq_some_iff.mp h
    have before := decodeVarint_lt read
    have after : rest.length ≤ tail.length := takeBytes_shrinks n _ _ _ h
    omega
  · cases h

theorem mergeVarint_encodeVarint {value : Nat} (fits : value < 2 ^ 64) (rest : Bytes) :
    mergeVarint .varint (encodeVarint value ++ rest) = some (value, rest) := by
  rw [mergeVarint, if_pos rfl, decodeVarint_encodeVarint fits]

theorem mergeBytes_encode {value : Bytes} (fits : value.length < 2 ^ 64) (rest : Bytes) :
    mergeBytes .lengthDelimited (encodeVarint value.length ++ value ++ rest) =
      some (value, rest) := by
  rw [mergeBytes, if_pos rfl, List.append_assoc, decodeVarint_encodeVarint fits]
  exact takeBytes_append value rest

/-! ## Unknown fields -/

/-- Skip the fields of a group up to the matching end key. -/
def skipGroup (skip : WireType → Nat → Bytes → Option Bytes) (tag : Nat) :
    Nat → Bytes → Option Bytes
  | 0, _ => none
  | fuel + 1, bytes =>
      (decodeKey bytes).bind fun key =>
        if key.wire = .endGroup then
          if key.tag = tag then some key.rest else none
        else
          (skip key.wire key.tag key.rest).bind fun rest => skipGroup skip tag fuel rest

/-- Skip a field no message knows; `depth` bounds the nesting of groups. -/
def skipField : Nat → WireType → Nat → Bytes → Option Bytes
  | 0, _, _, _ => none
  | depth + 1, wire, tag, bytes =>
      match wire with
      | .varint => (decodeVarint bytes).map (·.2)
      | .thirtyTwoBit => (takeBytes 4 bytes).map (·.2)
      | .sixtyFourBit => (takeBytes 8 bytes).map (·.2)
      | .lengthDelimited =>
          (decodeVarint bytes).bind fun r => (takeBytes r.1 r.2).map (·.2)
      | .startGroup => skipGroup (skipField depth) tag bytes.length bytes
      | .endGroup => none

theorem skipGroup_le {skip : WireType → Nat → Bytes → Option Bytes}
    (shorter : ∀ {wire tag bytes rest}, skip wire tag bytes = some rest →
      rest.length ≤ bytes.length)
    {tag fuel : Nat} {bytes rest : Bytes}
    (h : skipGroup skip tag fuel bytes = some rest) : rest.length ≤ bytes.length := by
  induction fuel generalizing bytes with
  | zero => cases h
  | succ fuel ih =>
      unfold skipGroup at h
      obtain ⟨key, read, h⟩ := Option.bind_eq_some_iff.mp h
      have before := decodeKey_lt read
      split at h
      · split at h
        · cases h
          omega
        · cases h
      · obtain ⟨middle, skipped, h⟩ := Option.bind_eq_some_iff.mp h
        have := shorter skipped
        have := ih h
        omega

theorem skipField_le {depth : Nat} {wire : WireType} {tag : Nat} {bytes rest : Bytes}
    (h : skipField depth wire tag bytes = some rest) : rest.length ≤ bytes.length := by
  induction depth generalizing wire tag bytes rest with
  | zero => cases h
  | succ depth ih =>
      cases wire <;> simp only [skipField] at h
      case varint =>
        obtain ⟨⟨v, tail⟩, read, rfl⟩ := Option.map_eq_some_iff.mp h
        exact Nat.le_of_lt (decodeVarint_lt read)
      case sixtyFourBit =>
        obtain ⟨⟨v, tail⟩, read, rfl⟩ := Option.map_eq_some_iff.mp h
        exact takeBytes_shrinks 8 _ _ _ read
      case lengthDelimited =>
        obtain ⟨⟨n, tail⟩, read, h⟩ := Option.bind_eq_some_iff.mp h
        obtain ⟨⟨v, tail'⟩, taken, rfl⟩ := Option.map_eq_some_iff.mp h
        exact Nat.le_trans (takeBytes_shrinks n _ _ _ taken) (Nat.le_of_lt (decodeVarint_lt read))
      case startGroup => exact skipGroup_le ih h
      case endGroup => cases h
      case thirtyTwoBit =>
        obtain ⟨⟨v, tail⟩, read, rfl⟩ := Option.map_eq_some_iff.mp h
        exact takeBytes_shrinks 4 _ _ _ read

/-- The nesting depth at which a decoder gives up. -/
def recursionLimit : Nat := 100

/-- Skip a field and keep the message as it is. -/
def mergeUnknown {M : Type u} (message : M) (wire : WireType) (tag : Nat)
    (bytes : Bytes) : Option (M × Bytes) :=
  (skipField recursionLimit wire tag bytes).map fun rest => (message, rest)

theorem mergeUnknown_shrinks {M : Type u} (message : M) (wire : WireType) (tag : Nat) :
    Shrinks (mergeUnknown message wire tag) := by
  intro bytes value rest h
  obtain ⟨tail, skipped, eq⟩ := Option.map_eq_some_iff.mp h
  cases eq
  exact skipField_le skipped

/-! ## Messages -/

/-- One message type: its default value, its encoding, and how one field of a
given tag and wire type is merged into a message. -/
structure Codec (M : Type u) where
  empty : M
  encode : M → Bytes
  mergeField : Nat → WireType → M → Bytes → Option (M × Bytes)
  shrinks : ∀ tag wire message, Shrinks (mergeField tag wire message)

namespace Codec

variable {M : Type u} (C : Codec M)

/-- The decoder's loop. -/
def mergeLoop : Nat → M → Bytes → Option M
  | _, message, [] => some message
  | 0, _, _ :: _ => none
  | fuel + 1, message, byte :: bytes =>
      (decodeKey (byte :: bytes)).bind fun key =>
        (C.mergeField key.tag key.wire message key.rest).bind fun r =>
          mergeLoop fuel r.1 r.2

/-- Merge all fields of `bytes` into a message.  Every field takes at least one
byte, so the length of the input is fuel enough (`decodeFrom_cons`). -/
def decodeFrom (message : M) (bytes : Bytes) : Option M :=
  C.mergeLoop bytes.length message bytes

/-- Decode a whole message. -/
def decode (bytes : Bytes) : Option M :=
  C.decodeFrom C.empty bytes

@[simp] theorem decodeFrom_nil (message : M) : C.decodeFrom message [] = some message := rfl

/-- What follows a field reads less than the field and what follows it. -/
theorem mergeField_bind_congr {f g : M → Bytes → Option M} {message : M} {byte : UInt8}
    {bytes : Bytes} (same : ∀ next rest, rest.length ≤ bytes.length → f next rest = g next rest) :
    ((decodeKey (byte :: bytes)).bind fun key =>
        (C.mergeField key.tag key.wire message key.rest).bind fun r => f r.1 r.2) =
      (decodeKey (byte :: bytes)).bind fun key =>
        (C.mergeField key.tag key.wire message key.rest).bind fun r => g r.1 r.2 := by
  cases read : decodeKey (byte :: bytes) with
  | none => rfl
  | some key =>
      have shorter := decodeKey_lt read
      simp only [Option.bind_some]
      cases merged : C.mergeField key.tag key.wire message key.rest with
      | none => rfl
      | some r =>
          have shrunk := C.shrinks _ _ _ _ _ _ merged
          rw [List.length_cons] at shorter
          exact same _ _ (by omega)

theorem mergeLoop_eq_of_le {fuel fuel' : Nat} {message : M} {bytes : Bytes}
    (enough : bytes.length ≤ fuel) (enough' : bytes.length ≤ fuel') :
    C.mergeLoop fuel message bytes = C.mergeLoop fuel' message bytes := by
  induction fuel generalizing fuel' message bytes with
  | zero =>
      obtain rfl := List.eq_nil_of_length_eq_zero (Nat.le_zero.mp enough)
      cases fuel' <;> rfl
  | succ fuel ih =>
      cases bytes with
      | nil => cases fuel' <;> rfl
      | cons byte bytes =>
          cases fuel' with
          | zero => simp at enough'
          | succ fuel' =>
              rw [List.length_cons] at enough enough'
              simp only [mergeLoop]
              exact C.mergeField_bind_congr fun next rest shorter =>
                ih (by omega) (by omega)

/-- The loop, one field at a time. -/
theorem decodeFrom_cons {message : M} {bytes : Bytes} (nonempty : bytes ≠ []) :
    C.decodeFrom message bytes =
      (decodeKey bytes).bind fun key =>
        (C.mergeField key.tag key.wire message key.rest).bind fun r =>
          C.decodeFrom r.1 r.2 := by
  cases bytes with
  | nil => exact absurd rfl nonempty
  | cons byte bytes =>
      rw [decodeFrom, List.length_cons, mergeLoop]
      exact C.mergeField_bind_congr fun next rest shorter =>
        C.mergeLoop_eq_of_le shorter (Nat.le_refl _)

theorem decodeFrom_key {tag : Nat} (positive : 0 < tag) (small : tag < 2 ^ 29)
    (wire : WireType) (message : M) (rest : Bytes) :
    C.decodeFrom message (encodeKey tag wire ++ rest) =
      (C.mergeField tag wire message rest).bind fun r => C.decodeFrom r.1 r.2 := by
  have nonempty : encodeKey tag wire ++ rest ≠ [] := by
    simp [encodeKey_ne_nil]
  rw [C.decodeFrom_cons nonempty, decodeKey_encodeKey positive small]
  rfl

/-- The encodings decode to the messages they encode. -/
def Lawful : Prop :=
  ∀ message, (C.encode message).length < 2 ^ 64 →
    C.decode (C.encode message) = some message

end Codec

/-! ## Encoded fields -/

def varintField (tag value : Nat) : Bytes :=
  encodeKey tag .varint ++ encodeVarint value

def bytesField (tag : Nat) (value : Bytes) : Bytes :=
  encodeKey tag .lengthDelimited ++ encodeVarint value.length ++ value

/-- A nested message is a length-delimited field. -/
def messageField {M : Type u} (C : Codec M) (tag : Nat) (message : M) : Bytes :=
  bytesField tag (C.encode message)

/-- Merge a nested message into the one already there. -/
def mergeMessage {M : Type u} (C : Codec M) (wire : WireType) (message : M)
    (bytes : Bytes) : Option (M × Bytes) :=
  (mergeBytes wire bytes).bind fun r =>
    (C.decodeFrom message r.1).map fun message => (message, r.2)

theorem mergeMessage_shrinks {M : Type u} (C : Codec M) (wire : WireType) (message : M) :
    Shrinks (mergeMessage C wire message) := by
  intro bytes value rest h
  obtain ⟨⟨inner, tail⟩, read, h⟩ := Option.bind_eq_some_iff.mp h
  obtain ⟨decoded, -, eq⟩ := Option.map_eq_some_iff.mp h
  cases eq
  exact mergeBytes_shrinks wire _ _ _ read

theorem length_le_bytesField (tag : Nat) (value : Bytes) :
    value.length < (bytesField tag value).length := by
  have := length_encodeVarint_pos value.length
  simp only [bytesField, List.length_append]
  omega

theorem length_varintField_le (tag value : Nat) : (varintField tag value).length ≤ 20 := by
  have key := length_encodeVarint_le (tag * 8 + WireType.varint.code)
  have field := length_encodeVarint_le value
  simp only [varintField, encodeKey, List.length_append]
  omega

theorem length_bytesField_mono {tag tag' : Nat} {value value' : Bytes}
    (keys : (encodeKey tag .lengthDelimited).length ≤ (encodeKey tag' .lengthDelimited).length)
    (le : value.length ≤ value'.length) :
    (bytesField tag value).length ≤ (bytesField tag' value').length := by
  have prefix_ := length_encodeVarintLoop_mono 10 le
  simp only [bytesField, List.length_append, encodeVarint]
  omega

theorem length_bytesField_le (tag : Nat) (value : Bytes) :
    (bytesField tag value).length ≤ value.length + 20 := by
  have key := length_encodeVarint_le (tag * 8 + WireType.lengthDelimited.code)
  have field := length_encodeVarint_le value.length
  simp only [bytesField, encodeKey, List.length_append]
  omega

/-! ## Decoding a list of encoded fields -/

namespace Codec

variable {M : Type u} (C : Codec M) {message : M} {tag : Nat} {fields : List Bytes}
  {f : Nat → M}

/-- A scalar field is merged and the loop goes on with the fields after it. -/
theorem decodeFrom_varintField {value : Nat}
    (merge : ∀ bytes, C.mergeField tag .varint message bytes =
      (mergeVarint .varint bytes).map fun r => (f r.1, r.2))
    (positive : 0 < tag) (small : tag < 2 ^ 29) (fits : value < 2 ^ 64) :
    C.decodeFrom message (varintField tag value :: fields).flatten =
      C.decodeFrom (f value) fields.flatten := by
  rw [List.flatten_cons, varintField, List.append_assoc,
    C.decodeFrom_key positive small, merge, mergeVarint_encodeVarint fits]
  rfl

/-- A length-delimited field is merged and the loop goes on. -/
theorem decodeFrom_bytesField {f : Bytes → M} {value : Bytes}
    (merge : ∀ bytes, C.mergeField tag .lengthDelimited message bytes =
      (mergeBytes .lengthDelimited bytes).map fun r => (f r.1, r.2))
    (positive : 0 < tag) (small : tag < 2 ^ 29) (fits : value.length < 2 ^ 64) :
    C.decodeFrom message (bytesField tag value :: fields).flatten =
      C.decodeFrom (f value) fields.flatten := by
  rw [List.flatten_cons, bytesField, List.append_assoc, List.append_assoc,
    C.decodeFrom_key positive small, merge, ← List.append_assoc, mergeBytes_encode fits]
  rfl

/-- A nested message that was not there yet is merged and the loop goes on. -/
theorem decodeFrom_messageField {N : Type u} {D : Codec N} (lawful : D.Lawful)
    {f : N → M} {value : N}
    (merge : ∀ bytes, C.mergeField tag .lengthDelimited message bytes =
      (mergeMessage D .lengthDelimited D.empty bytes).map fun r => (f r.1, r.2))
    (positive : 0 < tag) (small : tag < 2 ^ 29)
    (fits : (D.encode value).length < 2 ^ 64) :
    C.decodeFrom message (messageField D tag value :: fields).flatten =
      C.decodeFrom (f value) fields.flatten := by
  have decoded : D.decodeFrom D.empty (D.encode value) = some value := lawful value fits
  rw [List.flatten_cons, messageField, bytesField, List.append_assoc, List.append_assoc,
    C.decodeFrom_key positive small, merge, ← List.append_assoc, mergeMessage,
    mergeBytes_encode fits]
  simp only [Option.bind_some, decoded, Option.map_some]

/-- The bytes of a scalar field, cut off before its end, are no field. -/
theorem decodeFrom_truncated {value : Nat} {front : Bytes}
    (merge : ∀ bytes, C.mergeField tag .varint message bytes =
      (mergeVarint .varint bytes).map fun r => (f r.1, r.2))
    (positive : 0 < tag) (small : tag < 16)
    (before : front <+: varintField tag value) (nonempty : front ≠ [])
    (proper : front.length < (varintField tag value).length) :
    C.decodeFrom message front = none := by
  have oneByte : encodeKey tag .varint = [UInt8.ofNat (tag * 8)] :=
    encodeVarint_of_lt (by simp only [WireType.code]; omega)
  have field : varintField tag value = UInt8.ofNat (tag * 8) :: encodeVarint value := by
    rw [varintField, oneByte]
    rfl
  rw [field] at before proper
  cases front with
  | nil => exact absurd rfl nonempty
  | cons byte front =>
      obtain ⟨rfl, tail⟩ := List.cons_prefix_cons.mp before
      simp only [List.length_cons, Nat.add_lt_add_iff_right] at proper
      have whole : UInt8.ofNat (tag * 8) :: front = encodeKey tag .varint ++ front := by
        rw [oneByte]
        rfl
      rw [whole, C.decodeFrom_key positive (by omega), merge, mergeVarint, if_pos rfl,
        decodeVarint_proper tail proper]
      rfl

/-- A front of a list of encoded fields either is empty, or stops inside the first
field and is rejected, or contains the first field and a front of the others. -/
theorem decodeFrom_front (start : M) {value : Nat} {front back : Bytes}
    (merge : ∀ bytes, C.mergeField tag .varint start bytes =
      (mergeVarint .varint bytes).map fun r => (f r.1, r.2))
    (positive : 0 < tag) (small : tag < 16) (fits : value < 2 ^ 64)
    (split : (varintField tag value :: fields).flatten = front ++ back) :
    front = [] ∨ C.decodeFrom start front = none ∨
      ∃ front', front = varintField tag value ++ front' ∧
        fields.flatten = front' ++ back ∧
        C.decodeFrom start front = C.decodeFrom (f value) front' := by
  by_cases nonempty : front = []
  · exact .inl nonempty
  rw [List.flatten_cons] at split
  rcases List.append_eq_append_iff.mp split with ⟨front', h, tail⟩ | ⟨rest, h, -⟩
  · refine .inr (.inr ⟨front', h, tail, ?_⟩)
    have read : C.decodeFrom start [varintField tag value, front'].flatten =
        C.decodeFrom (f value) [front'].flatten :=
      C.decodeFrom_varintField merge positive (by omega) fits
    simpa [h] using read
  · by_cases whole : rest = []
    · subst whole
      rw [List.append_nil] at h
      refine .inr (.inr ⟨[], by simp [h], ?_, ?_⟩)
      · rw [h] at split
        simpa using split
      · have read : C.decodeFrom start [varintField tag value].flatten =
            C.decodeFrom (f value) ([] : List Bytes).flatten :=
          C.decodeFrom_varintField merge positive (by omega) fits
        simpa [h] using read
    · refine .inr (.inl (C.decodeFrom_truncated merge positive small ⟨rest, h.symm⟩
        nonempty ?_))
      have := List.length_pos_of_ne_nil whole
      rw [h, List.length_append]
      omega

end Codec

/-! ## Repeated fields and maps -/

/-- The values of a packed repeated field. -/
def decodePacked : Nat → Bytes → Option (List Nat)
  | _, [] => some []
  | 0, _ :: _ => none
  | fuel + 1, byte :: bytes =>
      (decodeVarint (byte :: bytes)).bind fun r =>
        (decodePacked fuel r.2).map fun values => r.1 :: values

/-- A repeated scalar arrives one by one or packed. -/
def mergeRepeated (wire : WireType) (bytes : Bytes) : Option (List Nat × Bytes) :=
  if wire = .lengthDelimited then
    (mergeBytes wire bytes).bind fun r =>
      (decodePacked r.1.length r.1).map fun values => (values, r.2)
  else (mergeVarint wire bytes).map fun r => ([r.1], r.2)

theorem mergeRepeated_shrinks (wire : WireType) : Shrinks (mergeRepeated wire) := by
  intro bytes value rest h
  unfold mergeRepeated at h
  split at h
  · obtain ⟨⟨inner, tail⟩, read, h⟩ := Option.bind_eq_some_iff.mp h
    obtain ⟨values, -, eq⟩ := Option.map_eq_some_iff.mp h
    cases eq
    exact mergeBytes_shrinks wire _ _ _ read
  · exact (mergeVarint_shrinks wire).map (fun v => [v]) _ _ _ h

/-- An entry of a map: its key and value are fields 1 and 2 of a message, left out
where they are the default. -/
def entryCodec {V : Type} [DecidableEq V] (C : Codec V) : Codec (UInt32 × V) where
  empty := (0, C.empty)
  encode entry :=
    [if entry.1 = 0 then [] else varintField 1 entry.1.toNat,
      if entry.2 = C.empty then [] else messageField C 2 entry.2].flatten
  mergeField tag wire entry :=
    match tag with
    | 1 => fun bytes =>
        (mergeVarint wire bytes).map fun r => ((UInt32.ofNat r.1, entry.2), r.2)
    | 2 => fun bytes =>
        (mergeMessage C wire entry.2 bytes).map fun r => ((entry.1, r.1), r.2)
    | _ => mergeUnknown entry wire tag
  shrinks tag wire entry := by
    split
    · exact (mergeVarint_shrinks wire).map fun v => (UInt32.ofNat v, entry.2)
    · exact (mergeMessage_shrinks C wire entry.2).map fun v => (entry.1, v)
    · exact mergeUnknown_shrinks entry wire tag

theorem entryCodec_lawful {V : Type} [DecidableEq V] {C : Codec V} (lawful : C.Lawful) :
    (entryCodec C).Lawful := by
  rintro ⟨key, value⟩ fits
  have key_lt : key.toNat < 2 ^ 64 := Nat.lt_trans key.toNat_lt (by decide)
  have readValue : (entryCodec C).decodeFrom (key, C.empty)
      [if value = C.empty then [] else messageField C 2 value].flatten =
        some (key, value) := by
    split
    next default => simp [default]
    next other =>
      have inner := length_le_bytesField 2 (C.encode value)
      have total : (messageField C 2 value).length < 2 ^ 64 := by
        simp only [entryCodec, if_neg other, List.flatten_cons, List.length_append] at fits
        omega
      rw [(entryCodec C).decodeFrom_messageField lawful (f := fun v => (key, v))
        (fun _ => rfl) (by decide) (by decide) (Nat.lt_trans inner total)]
      rfl
  unfold Codec.decode
  change (entryCodec C).decodeFrom (0, C.empty)
    ((if key = 0 then [] else varintField 1 key.toNat) ::
      [if value = C.empty then [] else messageField C 2 value]).flatten = _
  split
  next default =>
    rw [List.flatten_cons, List.nil_append, ← default]
    exact readValue
  next =>
    rw [(entryCodec C).decodeFrom_varintField (f := fun v => (UInt32.ofNat v, C.empty))
      (fun _ => rfl) (by decide) (by decide) key_lt, UInt32.ofNat_toNat]
    exact readValue

namespace Codec

variable {M : Type u} (C : Codec M) {tag : Nat} {fields : List Bytes}

/-- A repeated length-delimited field is folded into the message. -/
theorem decodeFrom_repeatedBytes {g : M → Bytes → M} (values : List Bytes) (message : M)
    (merge : ∀ message bytes, C.mergeField tag .lengthDelimited message bytes =
      (mergeBytes .lengthDelimited bytes).map fun r => (g message r.1, r.2))
    (positive : 0 < tag) (small : tag < 2 ^ 29)
    (fits : ∀ value ∈ values, value.length < 2 ^ 64) :
    C.decodeFrom message (values.map (bytesField tag) ++ fields).flatten =
      C.decodeFrom (values.foldl g message) fields.flatten := by
  induction values generalizing message with
  | nil => rfl
  | cons value values ih =>
      rw [List.map_cons, List.cons_append,
        C.decodeFrom_bytesField (merge message) positive small (fits value (by simp)),
        ih _ fun v mem => fits v (by simp [mem])]
      rfl

/-- A repeated scalar, written one by one, is folded into the message. -/
theorem decodeFrom_repeatedVarint {g : M → List Nat → M} (values : List Nat) (message : M)
    (merge : ∀ message bytes, C.mergeField tag .varint message bytes =
      (mergeRepeated .varint bytes).map fun r => (g message r.1, r.2))
    (positive : 0 < tag) (small : tag < 2 ^ 29)
    (fits : ∀ value ∈ values, value < 2 ^ 64) :
    C.decodeFrom message (values.map (varintField tag) ++ fields).flatten =
      C.decodeFrom (values.foldl (fun m v => g m [v]) message) fields.flatten := by
  induction values generalizing message with
  | nil => rfl
  | cons value values ih =>
      have one : ∀ bytes, C.mergeField tag .varint message bytes =
          (mergeVarint .varint bytes).map fun r => (g message [r.1], r.2) := by
        intro bytes
        rw [merge, mergeRepeated, if_neg (by decide), Option.map_map]
        rfl
      rw [List.map_cons, List.cons_append,
        C.decodeFrom_varintField (f := fun v => g message [v]) one positive small
          (fits value (by simp)),
        ih _ fun v mem => fits v (by simp [mem])]
      rfl

/-- The entries of a map are folded into the message one by one. -/
theorem decodeFrom_entries {V : Type} [DecidableEq V] {D : Codec V} (lawful : D.Lawful)
    {M : Type} (C : Codec M) {g : M → UInt32 × V → M} (entries : List (UInt32 × V))
    (message : M)
    (merge : ∀ message bytes, C.mergeField tag .lengthDelimited message bytes =
      (mergeMessage (entryCodec D) .lengthDelimited (entryCodec D).empty bytes).map
        fun r => (g message r.1, r.2))
    (positive : 0 < tag) (small : tag < 2 ^ 29)
    (fits : ∀ entry ∈ entries, ((entryCodec D).encode entry).length < 2 ^ 64) :
    C.decodeFrom message
        (entries.map (messageField (entryCodec D) tag) ++ fields).flatten =
      C.decodeFrom (entries.foldl g message) fields.flatten := by
  induction entries generalizing message with
  | nil => rfl
  | cons entry entries ih =>
      rw [List.map_cons, List.cons_append,
        C.decodeFrom_messageField (entryCodec_lawful lawful) (merge message) positive
          small (fits entry (by simp)),
        ih _ fun e mem => fits e (by simp [mem])]
      rfl

end Codec

/-- Every field of a short message is short. -/
theorem length_le_flatten {field : Bytes} {fields : List Bytes} (mem : field ∈ fields) :
    field.length ≤ fields.flatten.length :=
  (List.sublist_flatten_of_mem mem).length_le

end Cccp.Protobuf
