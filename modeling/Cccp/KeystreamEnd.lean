import Cccp.Cipher
import Cccp.ResumeBounds
import Cccp.Sender.Fills

/-!
# The end of a keystream

The reader and the writer of a file seek their ciphers to the start index and apply them to
all that follows.  ChaCha counts its blocks with 32 bits, so that its keystream ends before
256 GiB, where the crates panic; the size of a file is a `u64`.

`keystream_suffices_iff` says for which ciphers and sizes no call goes past the end.
-/

namespace Cccp

open Tiling

/-! ## Calls -/

/-- A call on a cipher object, with the position the object stands at when it is applied. -/
inductive CipherCall where
  | seek (position : Nat)
  | applyKeystream (position len : Nat)

/-- The position behind the last byte of the keystream that a call needs. -/
def CipherCall.reach : CipherCall → Nat
  | .seek position => position
  | .applyKeystream position len => position + len

def Cipher.isChaCha : Cipher → Bool
  | chacha8 | chacha20 => true
  | none | aes128 | aes192 | aes256 => false

/-- How many bytes of keystream the crates give, if it ends at all: ChaCha has a 32-bit
counter of blocks of 64 bytes, the others last for any `u64`. -/
structure KeystreamEnds where
  bytes : Cipher → Option Nat
  chacha : ∀ cipher, cipher.isChaCha = true → ∃ n, bytes cipher = some n ∧ n < 2 ^ 38
  others : ∀ cipher, cipher.isChaCha = false → ∀ n, bytes cipher = some n → 2 ^ 64 ≤ n

/-- A call goes past the end of the keystream. -/
def KeystreamEnds.Past (ends : KeystreamEnds) (cipher : Cipher) (call : CipherCall) : Prop :=
  ∃ n, ends.bytes cipher = some n ∧ n < call.reach

/-! ## The reader -/

namespace PacedReader

/-- How many bytes the next iteration reads. -/
def readLength (r : PacedReader) : Nat :=
  ((r.reader.source.fillBufFrom r.counts).1.buffer.take transferBufferSize).length

/-- The calls of the next `fuel` iterations. -/
def calls (id : UInt32) : Nat → PacedReader → List CipherCall
  | 0, _ => []
  | fuel + 1, r =>
      match r.next id with
      | none => []
      | some (_, r') =>
          .applyKeystream r.reader.cipher.offset r.readLength :: calls id fuel r'

theorem offset_of_next {r r' : PacedReader} {id : UInt32} {job : Sender.Job}
    (next : r.next id = some (job, r')) :
    r'.reader.cipher.offset = r.reader.cipher.offset + r.readLength := by
  unfold PacedReader.next Reader.queueRead at next
  dsimp only at next
  split at next
  next => cases next
  next =>
    cases next
    rfl

/-- There is a call for each read. -/
theorem At.calls {file : Bytes} {id : UInt32} {keystream : Keystream} {position : Nat}
    {r : PacedReader} {fuel : Nat} (at_ : r.At file id keystream position)
    (fits : file.length < 2 ^ 64) (enough : (r.left position).length < fuel) :
    PacedReader.calls id fuel r =
      (pieces position (r.left position)).map fun piece => .applyKeystream piece.1 piece.2 := by
  induction fuel generalizing position r with
  | zero => omega
  | succ fuel ih =>
      unfold PacedReader.calls
      rcases at_.next fits with ⟨none_, ended⟩ |
        ⟨n, rest, job, r', some_, next, -, -, -, at', left'⟩
      · rw [none_, ended]
        rfl
      · have moved := offset_of_next next
        rw [at'.offset_eq, at_.offset_eq] at moved
        have read : r.readLength = n := by omega
        rw [some_, List.length_cons] at enough
        rw [some_, next, at_.offset_eq, read]
        dsimp only
        rw [ih at' (by rw [left']; omega), left']
        rfl

end PacedReader

/-- The calls `reader` makes for a file that answers with these fills. -/
def readerCalls (file : Bytes) (index : UInt64) (id : UInt32) (cipher : StreamCipher)
    (fills : Fills (file.length - index.toNat)) : List CipherCall :=
  .seek index.toNat ::
    PacedReader.calls id (file.length + 1) ⟨Reader.start file index id cipher, fills.counts⟩

section

variable {file : Bytes} {index : UInt64} (id : UInt32) (cipher : StreamCipher)

theorem readerCalls_eq (fits : file.length < 2 ^ 64) (within : index.toNat ≤ file.length)
    (fills : Fills (file.length - index.toNat)) :
    readerCalls file index id cipher fills = .seek index.toNat ::
      (pieces index.toNat (fills.counts.flatMap (tiles transferBufferSize))).map
        fun piece => .applyKeystream piece.1 piece.2 := by
  have at_ : PacedReader.At file id cipher.keystream index.toNat
      ⟨Reader.start file index id cipher, fills.counts⟩ :=
    PacedReader.at_start cipher within fills
  rw [readerCalls, at_.calls fits (length_left_start id cipher fills), left_start]

/-- The calls reach to the end of the file, and no further. -/
theorem reach_readerCalls (fits : file.length < 2 ^ 64) (within : index.toNat ≤ file.length)
    (fills : Fills (file.length - index.toNat)) :
    (∀ call ∈ readerCalls file index id cipher fills, call.reach ≤ file.length) ∧
      ∃ call ∈ readerCalls file index id cipher fills, call.reach = file.length := by
  have total : index.toNat + (fills.counts.flatMap (tiles transferBufferSize)).sum =
      file.length := by
    rw [sum_flatMap_tiles, fills.total]
    exact Nat.add_sub_cancel' within
  rw [readerCalls_eq id cipher fits within]
  constructor
  · intro call mem
    rcases List.mem_cons.mp mem with rfl | mem
    · exact within
    · obtain ⟨piece, listed, rfl⟩ := List.mem_map.mp mem
      exact Nat.le_trans (mem_pieces_le listed) (Nat.le_of_eq total)
  · by_cases none_ : fills.counts.flatMap (tiles transferBufferSize) = []
    · refine ⟨_, List.mem_cons_self, ?_⟩
      rw [none_] at total
      exact total
    · obtain ⟨piece, listed, to_end⟩ := exists_piece_to_end none_
      refine ⟨_, List.mem_cons_of_mem _ (List.mem_map_of_mem listed), ?_⟩
      exact to_end.trans total

end

/-! ## The writer -/

namespace Writer

/-- The call `write_data` makes; the buffer is an array of `TRANSFER_BUFFER_SIZE` bytes. -/
def writeCall (size : UInt64) (w : Writer) : CipherCall :=
  .applyKeystream w.cipher.offset
    (min (size - w.position) (UInt64.ofNat transferBufferSize)).toNat

/-- The data of a job is an array. -/
def IsArray (job : Receiver.Job) : Prop := job.data.length = transferBufferSize

/-- The cipher stands where the writer does. -/
structure Aligned (size : UInt64) (w : Writer) : Prop where
  within : w.Within size
  offset : w.cipher.offset = w.position.toNat
  kept : ∀ index job, w.cache.lookup index = some job → IsArray job

variable {size : UInt64} {w : Writer}

theorem Aligned.reach (aligned : w.Aligned size) :
    (w.writeCall size).reach = w.position.toNat + lenAt size w.position.toNat := by
  rw [writeCall, CipherCall.reach, aligned.offset, toNat_len aligned.within]

theorem Aligned.reach_le (aligned : w.Aligned size) : (w.writeCall size).reach ≤ size.toNat := by
  have inside : w.position.toNat ≤ size.toNat := aligned.within
  rw [aligned.reach, lenAt]
  omega

theorem Aligned.writeData (aligned : w.Aligned size) {job : Receiver.Job} (array : IsArray job) :
    (w.writeData job.data size).Aligned size := by
  refine ⟨aligned.within.writeData job.data, ?_, aligned.kept⟩
  rw [position_writeData aligned.within]
  change w.cipher.offset + (job.data.take _).length = _
  rw [toNat_len aligned.within, List.length_take, array, aligned.offset, lenAt]
  omega

theorem Aligned.erase (aligned : w.Aligned size) (index : UInt64) :
    Aligned size { w with cache := w.cache.erase index } := by
  refine ⟨aligned.within, aligned.offset, ?_⟩
  intro other job found
  exact aligned.kept other job (lookup_of_lookup_erase found)

theorem Aligned.drain {fuel : Nat} (aligned : w.Aligned size) :
    (w.drain size fuel).Aligned size ∧ ∀ v ∈ drainWrites size fuel w, v.Aligned size := by
  induction fuel generalizing w with
  | zero => exact ⟨aligned, List.forall_mem_nil _⟩
  | succ fuel ih =>
      rw [Writer.drain, drainWrites]
      cases found : w.cache.lookup w.position with
      | none => exact ⟨aligned, List.forall_mem_nil _⟩
      | some job =>
          have written := (aligned.erase w.position).writeData (aligned.kept _ _ found)
          obtain ⟨drained, writes⟩ := ih written
          exact ⟨drained, List.forall_mem_cons.mpr ⟨aligned, writes⟩⟩

theorem Aligned.insert (aligned : w.Aligned size) {job : Receiver.Job} (array : IsArray job) :
    Aligned size { w.confirm job.index with cache := w.cache.insert job.index job } := by
  refine ⟨aligned.within, aligned.offset, ?_⟩
  intro other job' found
  rcases lookup_insert_cases found with ⟨rfl, rfl⟩ | found
  · exact array
  · exact aligned.kept other job' found

theorem Aligned.handle (aligned : w.Aligned size) {job : Receiver.Job} (array : IsArray job) :
    (w.handle size job).Aligned size ∧ ∀ v ∈ handleWrites size w job, v.Aligned size := by
  rw [Writer.handle, handleWrites]
  split
  next behind =>
    rw [if_pos (.inl behind)]
    exact ⟨aligned, List.forall_mem_nil _⟩
  next notBehind =>
    split
    next ahead =>
      rw [if_pos (.inr ahead)]
      exact ⟨aligned.insert array, List.forall_mem_nil _⟩
    next notAhead =>
      rw [if_neg (not_or_intro notBehind notAhead)]
      have written : ((w.writeData job.data size).confirm job.index).Aligned size := by
        obtain ⟨within, offset, kept⟩ := aligned.writeData array
        exact ⟨within, offset, kept⟩
      obtain ⟨drained, writes⟩ := written.drain
      exact ⟨drained, List.forall_mem_cons.mpr ⟨aligned, writes⟩⟩

theorem Aligned.runWrites (aligned : w.Aligned size) {delivered : List Receiver.Job}
    (arrays : ∀ job ∈ delivered, IsArray job) :
    ∀ v ∈ w.runWrites size delivered, v.Aligned size := by
  induction delivered generalizing w with
  | nil => exact List.forall_mem_nil _
  | cons job rest ih =>
      rw [Writer.runWrites]
      obtain ⟨handled, writes⟩ := aligned.handle (arrays job List.mem_cons_self)
      split
      next => exact List.forall_mem_nil _
      next =>
        have later := ih handled fun job mem => arrays job (List.mem_cons_of_mem _ mem)
        exact List.forall_mem_append.mpr ⟨writes, later⟩

theorem aligned_start {startIndex : UInt64} (within : startIndex ≤ size) (cipher : StreamCipher) :
    (start startIndex cipher).Aligned size where
  within := UInt64.le_iff_toNat_le.mp within
  offset := rfl
  kept _ _ found := by cases found

/-- The chunk at the position of the writer. -/
def nextJob (w : Writer) : Receiver.Job := ⟨List.replicate transferBufferSize 0, w.position⟩

/-- Chunks that arrive in order are written one by one. -/
theorem handle_nextJob (empty : w.cache = ∅) :
    w.handle size w.nextJob = (w.writeData w.nextJob.data size).confirm w.position ∧
      handleWrites size w w.nextJob = [w] := by
  have same : ¬ w.nextJob.index < w.position := UInt64.lt_irrefl _
  have same' : ¬ w.position < w.nextJob.index := UInt64.lt_irrefl _
  have rounds : ((w.writeData w.nextJob.data size).confirm
      w.nextJob.index).cache.entries.length = 0 := by
    change w.cache.entries.length = 0
    rw [empty]
    rfl
  rw [Writer.handle, handleWrites, if_neg same, if_neg same', if_neg (not_or_intro same same')]
  dsimp only
  rw [rounds]
  exact ⟨rfl, rfl⟩

/-- Some run writes up to the end of the file. -/
theorem exists_write_to_end (within : w.Within size) (before : w.position ≠ size)
    (empty : w.cache = ∅) : ∃ delivered, (∀ job ∈ delivered, IsArray job) ∧
      ∃ v ∈ w.runWrites size delivered,
        v.position.toNat + lenAt size v.position.toNat = size.toNat := by
  -- by induction on what is left of the file
  generalize left : size.toNat - w.position.toNat = n
  induction n using Nat.strongRecOn generalizing w with
  | ind n ih =>
      have inside : w.position.toNat ≤ size.toNat := within
      have some_ : w.position.toNat ≠ size.toNat := mt UInt64.toNat_inj.mp before
      have array : IsArray w.nextJob := List.length_replicate
      obtain ⟨handled, writes⟩ := @handle_nextJob size w empty
      have moved := position_writeData within w.nextJob.data
      by_cases last : w.position.toNat + lenAt size w.position.toNat = size.toNat
      · refine ⟨[w.nextJob], ?_, w, ?_, last⟩
        · intro job mem
          rw [List.mem_singleton.mp mem]
          exact array
        · rw [Writer.runWrites, if_neg before, writes]
          exact List.mem_append_left _ List.mem_cons_self
      · have before' : (w.handle size w.nextJob).position ≠ size := by
          rw [handled]
          intro same
          exact last (moved.symm.trans (congrArg UInt64.toNat same))
        have empty' : (w.handle size w.nextJob).cache = ∅ := by
          rw [handled]
          exact empty
        have fewer : size.toNat - (w.handle size w.nextJob).position.toNat < n := by
          rw [handled]
          change size.toNat - (w.writeData w.nextJob.data size).position.toNat < n
          rw [moved, lenAt, transferBufferSize]
          omega
        obtain ⟨delivered, arrays, v, mem, to_end⟩ :=
          ih _ fewer (within.handle w.nextJob) before' empty' rfl
        refine ⟨w.nextJob :: delivered, ?_, v, ?_, to_end⟩
        · intro job mem
          rcases List.mem_cons.mp mem with rfl | mem
          · exact array
          · exact arrays job mem
        · rw [Writer.runWrites, if_neg before]
          exact List.mem_append_right _ mem

end Writer

/-- The calls `writer` makes for a file, with the jobs it receives. -/
def writerCalls (size startIndex : UInt64) (cipher : StreamCipher)
    (delivered : List Receiver.Job) : List CipherCall :=
  .seek startIndex.toNat ::
    ((Writer.start startIndex cipher).runWrites size delivered).map (Writer.writeCall size)

section

variable {size startIndex : UInt64}

theorem reach_writerCalls_le (within : startIndex ≤ size) (cipher : StreamCipher)
    {delivered : List Receiver.Job} (arrays : ∀ job ∈ delivered, Writer.IsArray job) :
    ∀ call ∈ writerCalls size startIndex cipher delivered, call.reach ≤ size.toNat := by
  intro call mem
  rcases List.mem_cons.mp mem with rfl | mem
  · exact UInt64.le_iff_toNat_le.mp within
  · obtain ⟨w, writes, rfl⟩ := List.mem_map.mp mem
    exact ((Writer.aligned_start within cipher).runWrites arrays w writes).reach_le

theorem exists_writerCalls_to_end (within : startIndex ≤ size) (cipher : StreamCipher) :
    ∃ delivered, (∀ job ∈ delivered, Writer.IsArray job) ∧
      ∃ call ∈ writerCalls size startIndex cipher delivered, call.reach = size.toNat := by
  have aligned := Writer.aligned_start within cipher
  by_cases whole : startIndex = size
  · refine ⟨[], fun job none_ => absurd none_ List.not_mem_nil, _, List.mem_cons_self, ?_⟩
    rw [CipherCall.reach, whole]
  · obtain ⟨delivered, arrays, w, writes, to_end⟩ :=
      @Writer.exists_write_to_end size (Writer.start startIndex cipher) aligned.within whole rfl
    refine ⟨delivered, arrays, _, List.mem_cons_of_mem _ (List.mem_map_of_mem writes), ?_⟩
    rw [(aligned.runWrites arrays w writes).reach]
    exact to_end

end

/-! ## Which files are too large -/

/-- The keystream is as long as the file. -/
def KeystreamEnds.Lasts (ends : KeystreamEnds) (cipher : Cipher) (size : UInt64) : Prop :=
  ∀ n, ends.bytes cipher = some n → size.toNat ≤ n

theorem KeystreamEnds.lasts_iff (ends : KeystreamEnds) (cipher : Cipher) (size : UInt64) :
    ends.Lasts cipher size ↔
      (cipher.isChaCha = true → ∀ n, ends.bytes cipher = some n → size.toNat ≤ n) := by
  constructor
  · exact fun lasts _ => lasts
  · intro chacha n is
    cases kind : cipher.isChaCha with
    | true => exact chacha kind n is
    | false =>
        have long := ends.others cipher kind n is
        have bound := size.toNat_lt
        omega

/-- Calls that reach to the end of a file, and no further. -/
theorem KeystreamEnds.lasts_of_reach {ends : KeystreamEnds} {cipher : Cipher} {size : UInt64}
    {call : CipherCall} (inside : ¬ ends.Past cipher call) (to_end : call.reach = size.toNat) :
    ends.Lasts cipher size := by
  intro n is
  by_contra short
  exact inside ⟨n, is, by omega⟩

theorem KeystreamEnds.Lasts.not_past {ends : KeystreamEnds} {cipher : Cipher} {size : UInt64}
    (lasts : ends.Lasts cipher size) {call : CipherCall} (within : call.reach ≤ size.toNat) :
    ¬ ends.Past cipher call := by
  rintro ⟨n, is, past⟩
  have long := lasts n is
  omega

variable {ends : KeystreamEnds} {cipher : Cipher} {size start : UInt64}

/-- Every run of the reader uses the keystream up to the end of the file. -/
theorem reader_suffices_iff {file : Bytes} (whole : file.length = size.toNat)
    (within : start ≤ size) (id : UInt32) (stream : StreamCipher)
    (fills : Fills (file.length - start.toNat)) :
    (∀ call ∈ readerCalls file start id stream fills, ¬ ends.Past cipher call) ↔
      ends.Lasts cipher size := by
  have fits : file.length < 2 ^ 64 := whole ▸ size.toNat_lt
  have inside : start.toNat ≤ file.length := whole ▸ UInt64.le_iff_toNat_le.mp within
  obtain ⟨reach, call, mem, to_end⟩ := reach_readerCalls id stream fits inside fills
  constructor
  · intro suffices_
    exact KeystreamEnds.lasts_of_reach (suffices_ call mem) (to_end.trans whole)
  · intro lasts call mem
    exact lasts.not_past (whole ▸ reach call mem)

/-- Some runs of the writer do. -/
theorem writer_suffices_iff (within : start ≤ size) (stream : StreamCipher) :
    (∀ delivered, (∀ job ∈ delivered, Writer.IsArray job) →
      ∀ call ∈ writerCalls size start stream delivered, ¬ ends.Past cipher call) ↔
        ends.Lasts cipher size := by
  constructor
  · intro suffices_
    obtain ⟨delivered, arrays, call, mem, to_end⟩ := exists_writerCalls_to_end within stream
    exact KeystreamEnds.lasts_of_reach (suffices_ delivered arrays call mem) to_end
  · intro lasts delivered arrays call mem
    exact lasts.not_past (reach_writerCalls_le within stream arrays call mem)

/-- No call for a file of this size goes past the end of the keystream, on either side and in
no run, if the file is sent from `start` on. -/
structure KeystreamSuffices (ends : KeystreamEnds) (cipher : Cipher) (size start : UInt64) :
    Prop where
  reader : ∀ (file : Bytes) (id : UInt32) (stream : StreamCipher)
    (fills : Fills (file.length - start.toNat)), file.length = size.toNat →
      ∀ call ∈ readerCalls file start id stream fills, ¬ ends.Past cipher call
  writer : ∀ (stream : StreamCipher) (delivered : List Receiver.Job),
    (∀ job ∈ delivered, Writer.IsArray job) →
      ∀ call ∈ writerCalls size start stream delivered, ¬ ends.Past cipher call

/-- **The keystream suffices** if and only if the cipher is not ChaCha or its keystream is as
long as the file. -/
theorem keystream_suffices_iff (ends : KeystreamEnds) (cipher : Cipher) {size start : UInt64}
    (within : start ≤ size) : KeystreamSuffices ends cipher size start ↔
      (cipher.isChaCha = true → ∀ n, ends.bytes cipher = some n → size.toNat ≤ n) := by
  rw [← ends.lasts_iff]
  constructor
  · intro suffices_
    exact (writer_suffices_iff within ⟨fun _ => 0, 0, none⟩).mp
      (suffices_.writer ⟨fun _ => 0, 0, none⟩)
  · intro lasts
    refine ⟨?_, ?_⟩
    · intro file id stream fills whole
      exact (reader_suffices_iff whole within id stream fills).mpr lasts
    · intro stream
      exact (writer_suffices_iff within stream).mpr lasts

/-- ChaCha gives all blocks but the last that it can count. -/
def crateEnds : KeystreamEnds where
  bytes cipher := if cipher.isChaCha then some ((2 ^ 32 - 1) * 64) else none
  chacha cipher is := ⟨_, if_pos is, by decide⟩
  others cipher is n bytes := by
    rw [is] at bytes
    cases bytes

/-- A file of 256 GiB exhausts `CHACHA20`, on either side. -/
theorem largeFile_exhausts : ¬ KeystreamSuffices crateEnds .chacha20 274877906944 0 := by
  intro suffices_
  have lasts := (writer_suffices_iff UInt64.zero_le ⟨fun _ => 0, 0, none⟩).mp
    (suffices_.writer ⟨fun _ => 0, 0, none⟩)
  exact absurd (lasts _ rfl) (by decide)

/-- Three bytes, of which one is there. -/
theorem keystream_suffices_iff_three_bytes : KeystreamSuffices crateEnds .chacha20 3 1 := by
  apply (keystream_suffices_iff crateEnds .chacha20 (by decide)).mpr
  intro _ n is
  cases is
  decide

end Cccp
