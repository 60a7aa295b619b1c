import Cccp.Lib.Bytes

/-!
# Position-indexed keystreams

A seekable stream cipher XORs keystream byte `p` onto the byte at position `p`.
`xorAt ks p bytes` is that operation on a byte string that starts at position
`p`; `StreamCipher` adds the offset a cipher object carries from call to call, and how
many bytes of keystream there are where it ends.
-/

namespace Cccp

/-- A keystream: one byte for every position. -/
abbrev Keystream := Nat → UInt8

/-- XOR the keystream onto `bytes`, the first of which stands at position `p`. -/
def Keystream.xorAt (ks : Keystream) : Nat → Bytes → Bytes
  | _, [] => []
  | p, byte :: rest => (byte ^^^ ks p) :: ks.xorAt (p + 1) rest

namespace Keystream

variable (ks : Keystream)

@[simp] theorem xorAt_nil (p : Nat) : ks.xorAt p [] = [] := rfl

@[simp] theorem length_xorAt (p : Nat) (bytes : Bytes) :
    (ks.xorAt p bytes).length = bytes.length := by
  induction bytes generalizing p with
  | nil => rfl
  | cons byte rest ih => simp [xorAt, ih]

theorem take_xorAt (p n : Nat) (bytes : Bytes) :
    (ks.xorAt p bytes).take n = ks.xorAt p (bytes.take n) := by
  induction bytes generalizing p n with
  | nil => simp
  | cons byte rest ih =>
      cases n with
      | zero => rfl
      | succ n => simp [xorAt, ih]

theorem xorAt_append (p : Nat) (bytes rest : Bytes) :
    ks.xorAt p (bytes ++ rest) = ks.xorAt p bytes ++ ks.xorAt (p + bytes.length) rest := by
  induction bytes generalizing p with
  | nil => rfl
  | cons byte bytes ih =>
      rw [List.cons_append, xorAt, xorAt, ih, List.cons_append, List.length_cons, Nat.add_assoc,
        Nat.add_comm 1]

/-- Decryption is encryption: applying the keystream twice changes nothing. -/
@[simp] theorem xorAt_xorAt (p : Nat) (bytes : Bytes) :
    ks.xorAt p (ks.xorAt p bytes) = bytes := by
  induction bytes generalizing p with
  | nil => rfl
  | cons byte rest ih =>
      simp only [xorAt, ih, UInt8.xor_assoc, UInt8.xor_self, UInt8.xor_zero]

end Keystream

/-- A cipher object: its keystream, the position it stands at, and how many bytes of
keystream there are, if it ends. -/
structure StreamCipher where
  keystream : Keystream
  offset : Nat
  ends : Option Nat

namespace StreamCipher

/-- Move to a position of the keystream. -/
def seek (cipher : StreamCipher) (position : Nat) : StreamCipher :=
  { cipher with offset := position }

/-- XOR the next bytes of the keystream onto `data` and move past them. -/
def applyKeystream (cipher : StreamCipher) (data : Bytes) : Bytes × StreamCipher :=
  (cipher.keystream.xorAt cipher.offset data,
    { cipher with offset := cipher.offset + data.length })

/-- The position lies past the end of the keystream, where no call may go. -/
def past (cipher : StreamCipher) (position : Nat) : Bool :=
  match cipher.ends with
  | some n => decide (n < position)
  | none => false

@[simp] theorem seek_keystream (cipher : StreamCipher) (position : Nat) :
    (cipher.seek position).keystream = cipher.keystream := rfl

@[simp] theorem seek_offset (cipher : StreamCipher) (position : Nat) :
    (cipher.seek position).offset = position := rfl

@[simp] theorem seek_ends (cipher : StreamCipher) (position : Nat) :
    (cipher.seek position).ends = cipher.ends := rfl

@[simp] theorem applyKeystream_ends (cipher : StreamCipher) (data : Bytes) :
    (cipher.applyKeystream data).2.ends = cipher.ends := rfl

@[simp] theorem applyKeystream_keystream (cipher : StreamCipher) (data : Bytes) :
    (cipher.applyKeystream data).2.keystream = cipher.keystream := rfl

@[simp] theorem applyKeystream_offset (cipher : StreamCipher) (data : Bytes) :
    (cipher.applyKeystream data).2.offset = cipher.offset + data.length := rfl

@[simp] theorem length_applyKeystream (cipher : StreamCipher) (data : Bytes) :
    (cipher.applyKeystream data).1.length = data.length :=
  cipher.keystream.length_xorAt _ _

theorem past_eq_false_iff {cipher : StreamCipher} {position : Nat} :
    cipher.past position = false ↔ ∀ n, cipher.ends = some n → position ≤ n := by
  unfold past
  cases cipher.ends with
  | none => simp
  | some n => simp

end StreamCipher

end Cccp
