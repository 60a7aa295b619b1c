import Cccp.Reassembly
import Cccp.Receiver.ConfirmedOnce

/-!
# Chunks that were announced

The manifest has the size a file had when it was crawled; the reader goes on to the end of
the file as it is when it is read.  The writer stops at the size.

`announced_iff` says how long the file may have become: to the end of the last chunk that
begins below the size.
-/

namespace Cccp

open Reader (ChunkPosition)

section

variable {file : Bytes} {startIndex size : UInt64} {id : UInt32} {cipher : StreamCipher}

/-- Where the reader stops before it reads a chunk at or past `size`. -/
def lastChunkEnd (startIndex size : UInt64) : Nat :=
  startIndex.toNat + (size.toNat - startIndex.toNat + (transferBufferSize - 1)) /
    transferBufferSize * transferBufferSize

/-- Every job `reader` queues is of a chunk that begins below the size, and the writer of
that size confirms it, however the jobs are delivered to it. -/
structure Announced (file : Bytes) (startIndex size : UInt64) (id : UInt32)
    (cipher : StreamCipher) : Prop where
  inside : ∀ sent ∈ readerJobs file startIndex id cipher, sent.index < size
  confirmed : ∀ delivered : List Receiver.Job,
    (∀ job ∈ delivered, ∃ sent ∈ readerJobs file startIndex id cipher, Delivers sent job) →
    (∀ sent ∈ readerJobs file startIndex id cipher, ∃ job ∈ delivered, Delivers sent job) →
    ∀ sent ∈ readerJobs file startIndex id cipher,
      sent.index ∈ ((Writer.start startIndex cipher).run size delivered).confirmed

/-- Behind the end of its file, the reader queues nothing. -/
theorem readerJobs_past (past : file.length < startIndex.toNat) :
    readerJobs file startIndex id cipher = [] := by
  have ended : (Reader.start file startIndex id cipher).next id = none := by
    rcases Reader.walks_start file startIndex id cipher with ended | ⟨_, position, at_, from_, -⟩
    · exact ended
    · have ahead := at_.source_at.ahead
      have within := at_.source_at.within
      omega
  rw [readerJobs, Reader.jobs, ended]

/-- The indexes of the jobs are the chunk positions. -/
theorem exists_readerJobs_iff (fits : file.length < 2 ^ 64) {p : Nat} :
    (∃ sent ∈ readerJobs file startIndex id cipher, sent.index.toNat = p) ↔
      ChunkPosition file startIndex.toNat p := by
  rcases Nat.lt_or_ge file.length startIndex.toNat with past | within
  · rw [readerJobs_past past]
    constructor
    · intro holds
      obtain ⟨sent, mem, -⟩ := holds
      cases mem
    · intro holds
      obtain ⟨from_, below, -⟩ := holds
      omega
  · constructor
    · intro holds
      obtain ⟨sent, mem, rfl⟩ := holds
      exact (readerJobs_sound id cipher fits within sent mem).2.1
    · exact readerJobs_complete id cipher fits within p

/-- All chunk positions are below the size exactly if the file is not too long. -/
theorem chunkPosition_lt_iff :
    (∀ p, ChunkPosition file startIndex.toNat p → p < size.toNat) ↔
      file.length ≤ lastChunkEnd startIndex size := by
  have chunk : transferBufferSize = 1024 := rfl
  unfold lastChunkEnd
  rw [chunk]
  constructor
  · intro below
    by_contra long
    have inside := below (startIndex.toNat +
        (size.toNat - startIndex.toNat + (1024 - 1)) / 1024 * 1024)
      ⟨Nat.le_add_right _ _, by omega, by rw [chunk]; omega⟩
    omega
  · intro short p holds
    obtain ⟨from_, below, aligned⟩ := holds
    rw [chunk] at aligned
    omega

end

end Cccp
