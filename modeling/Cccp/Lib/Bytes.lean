import Mathlib.Algebra.Group.Nat.Defs
import Mathlib.Data.List.Basic
import Mathlib.Data.List.Induction

/-!
# Byte strings

Big-endian numbers and in-place writes (`splice`) on byte strings, the two
operations frames and length prefixes are built from.
-/

namespace Cccp

/-- Byte strings; Rust's `Vec<u8>`, `&[u8]` and `[u8; N]`. -/
abbrev Bytes := List UInt8

namespace Bytes

/-! ## Big-endian numbers -/

/-- The `width` low-order bytes of `n`, most significant first. -/
def toBE : Nat → Nat → Bytes
  | 0, _ => []
  | width + 1, n => toBE width (n / 256) ++ [UInt8.ofNat n]

/-- The number a byte string denotes, most significant byte first. -/
def fromBE (bytes : Bytes) : Nat :=
  bytes.foldl (fun acc byte => acc * 256 + byte.toNat) 0

@[simp] theorem length_toBE (width n : Nat) : (toBE width n).length = width := by
  induction width generalizing n with
  | zero => rfl
  | succ width ih => simp [toBE, ih]

theorem fromBE_append_singleton (bytes : Bytes) (byte : UInt8) :
    fromBE (bytes ++ [byte]) = fromBE bytes * 256 + byte.toNat := by
  simp [fromBE]

/-- Reading back the low-order bytes of `n` gives `n` modulo their range. -/
theorem fromBE_toBE (width n : Nat) : fromBE (toBE width n) = n % 256 ^ width := by
  induction width generalizing n with
  | zero => simp [toBE, fromBE, Nat.mod_one]
  | succ width ih =>
      have split : n % 256 ^ (width + 1) = n % 256 + 256 * (n / 256 % 256 ^ width) := by
        rw [Nat.pow_succ', Nat.mod_mul]
      have low : (UInt8.ofNat n).toNat = n % 256 := UInt8.toNat_ofNat'
      rw [toBE, fromBE_append_singleton, ih, low, split]
      omega

theorem fromBE_toBE_of_lt {width n : Nat} (fits : n < 256 ^ width) :
    fromBE (toBE width n) = n := by
  rw [fromBE_toBE, Nat.mod_eq_of_lt fits]

/-- Writing back the number of some bytes gives these bytes. -/
theorem toBE_fromBE (bytes : Bytes) : toBE bytes.length (fromBE bytes) = bytes := by
  induction bytes using List.reverseRecOn with
  | nil => rfl
  | append_singleton bytes byte ih =>
      have small : byte.toNat < 256 := byte.toNat_lt
      have high : (fromBE bytes * 256 + byte.toNat) / 256 = fromBE bytes := by omega
      have low : UInt8.ofNat (fromBE bytes * 256 + byte.toNat) = byte := by
        rw [← UInt8.toNat_inj, UInt8.toNat_ofNat']
        omega
      rw [List.length_append, List.length_singleton, toBE, fromBE_append_singleton, high, low, ih]

theorem fromBE_lt (bytes : Bytes) : fromBE bytes < 256 ^ bytes.length := by
  induction bytes using List.reverseRecOn with
  | nil => decide
  | append_singleton bytes byte ih =>
      have small : byte.toNat < 256 := byte.toNat_lt
      rw [List.length_append, List.length_singleton, fromBE_append_singleton, Nat.pow_succ]
      omega

/-! ## Writing into a buffer -/

/-- Overwrite `buffer` with `bytes` from offset `at_` on
(`buffer[at_..at_ + bytes.len()].copy_from_slice(bytes)`). -/
def splice (buffer : Bytes) (at_ : Nat) (bytes : Bytes) : Bytes :=
  buffer.take at_ ++ bytes ++ buffer.drop (at_ + bytes.length)

variable {buffer bytes : Bytes} {at_ : Nat}

theorem length_splice (fits : at_ + bytes.length ≤ buffer.length) :
    (splice buffer at_ bytes).length = buffer.length := by
  simp only [splice, List.length_append, List.length_take, List.length_drop]
  omega

/-- What lies before the write is kept. -/
theorem take_splice (fits : at_ ≤ buffer.length) :
    (splice buffer at_ bytes).take at_ = buffer.take at_ := by
  have len : (buffer.take at_).length = at_ := List.length_take_of_le fits
  rw [splice, List.append_assoc]
  exact List.take_left' len

/-- The written bytes stand at their offset, followed by the old tail. -/
theorem drop_splice (fits : at_ ≤ buffer.length) :
    (splice buffer at_ bytes).drop at_ =
      bytes ++ buffer.drop (at_ + bytes.length) := by
  have len : (buffer.take at_).length = at_ := List.length_take_of_le fits
  rw [splice, List.append_assoc]
  exact List.drop_left' len

theorem take_drop_splice (fits : at_ ≤ buffer.length) :
    ((splice buffer at_ bytes).drop at_).take bytes.length = bytes := by
  rw [drop_splice fits]
  exact List.take_left' rfl

/-- A write that covers the whole buffer leaves nothing of it. -/
theorem splice_zero_of_length_eq (same : bytes.length = buffer.length) :
    splice buffer 0 bytes = bytes := by
  simp [splice, same]

end Bytes

end Cccp
