import Cccp.Lib.Bytes
import Mathlib.Data.List.AList

/-!
# Constants and identifiers

The sizes every module of the program shares, and the names the two sides use
for a chunk: the id of its file and the index of its first byte.
-/

namespace Cccp

/-- Bytes of file data in one datagram. -/
def transferBufferSize : Nat := 1024

/-- Capacity of the sender's `BufReader`, a multiple of `transferBufferSize`. -/
def readBufferSize : Nat := transferBufferSize * 100

/-- Capacity of the receiver's `BufWriter`. -/
def writeBufferSize : Nat := transferBufferSize * 100

/-- Bytes of a `u64` index in a datagram. -/
def indexSize : Nat := 8

/-- Bytes of a `u32` id in a datagram. -/
def idSize : Nat := 4

/-- Length of the frame a datagram carries: id, index and data. -/
def frameSize : Nat := idSize + indexSize + transferBufferSize

/-- A chunk of a transfer: the id of its file and the index of its first byte. -/
abbrev ChunkKey := UInt32 × UInt64

instance : LawfulBEq ChunkKey := Prod.instLawfulBEq

/-- Rust's `HashMap`: finitely many entries with distinct keys. -/
abbrev HashMap (κ : Type) (V : Type) := AList fun _ : κ => V

end Cccp
