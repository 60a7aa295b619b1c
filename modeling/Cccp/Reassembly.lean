import Cccp.Lib.Collections
import Cccp.Sender.Reader
import Cccp.Receiver.Writer

/-!
# From the reader's file to the writer's output

`sender::reader` encrypts chunks at their positions and `receiver::writer` decrypts
them in order with a cipher that advances by what it writes.  `Writer.Sound` ties
the writer's position, its cipher, its cache and its output together, and every
round of the loop keeps it; `reassembly` is the end-to-end result.
-/

namespace Cccp

open Reader (ChunkPosition)

/-! ## Datagrams -/

/-- The datagram of `sent` arrives as `job` for the writer of its id, whatever the
receiver's buffer held before. -/
def Delivers (sent : Sender.Job) (job : Receiver.Job) : Prop :=
  ∃ buf : Bytes, buf.length = frameSize ∧
    Receiver.decodeFrame (Receiver.recv buf sent.data) = (sent.id, job)

/-- A job with the encrypted chunk at its index, followed by bytes that do not matter. -/
def CarriesData (file : Bytes) (keystream : Keystream) (job : Receiver.Job) : Prop :=
  job.data.take (chunkAt file job.index.toNat).length =
    keystream.xorAt job.index.toNat (chunkAt file job.index.toNat)

/-- A frame fills the receiver's buffer. -/
theorem recv_frame {buf frame : Bytes} (size : buf.length = frameSize)
    (size' : frame.length = frameSize) : Receiver.recv buf frame = frame := by
  rw [Receiver.recv, List.take_of_length_le (by omega),
    Bytes.splice_zero_of_length_eq (by omega)]

/-- A frame that carries a chunk is decoded to its id, its index and the chunk. -/
theorem CarriesChunk.decodeFrame {file frame : Bytes} {id : UInt32} {keystream : Keystream}
    {position : Nat} (carries : CarriesChunk file id keystream position frame)
    (fits : position < 2 ^ 64) :
    (Receiver.decodeFrame frame).1 = id ∧
      (Receiver.decodeFrame frame).2.index.toNat = position ∧
      (Receiver.decodeFrame frame).2.data.take (chunkAt file position).length =
        keystream.xorAt position (chunkAt file position) := by
  obtain ⟨-, idBytes, indexBytes, data⟩ := carries
  refine ⟨?_, ?_, ?_⟩
  · simp only [Receiver.decodeFrame, idBytes]
    rw [Bytes.fromBE_toBE_of_lt (by rw [idSize]; exact id.toNat_lt), UInt32.ofNat_toNat]
  · simp only [Receiver.decodeFrame, indexBytes]
    rw [Bytes.fromBE_toBE_of_lt (by rw [indexSize]; omega), UInt64.toNat_ofNat',
      Nat.mod_eq_of_lt fits]
  · simp only [Receiver.decodeFrame, Nat.add_comm indexSize idSize]
    exact data

/-- The reader's jobs can be delivered as they are. -/
theorem delivers_decodeFrame {file : Bytes} {index : UInt64} {id : UInt32}
    {cipher : StreamCipher} {sent : Sender.Job} (fits : file.length < 2 ^ 64)
    (within : index.toNat ≤ file.length) (mem : sent ∈ readerJobs file index id cipher) :
    Delivers sent (Receiver.decodeFrame sent.data).2 := by
  obtain ⟨sent_id, -, carries⟩ := readerJobs_sound id cipher fits within sent mem
  refine ⟨sent.data, carries.1, ?_⟩
  rw [recv_frame carries.1 carries.1, sent_id, ← (carries.decodeFrame sent.index.toNat_lt).1]

/-- What is delivered of the reader's jobs carries chunks of the file. -/
theorem Delivers.carries {file : Bytes} {index : UInt64} {id : UInt32} {cipher : StreamCipher}
    {sent : Sender.Job} {job : Receiver.Job} (fits : file.length < 2 ^ 64)
    (within : index.toNat ≤ file.length) (mem : sent ∈ readerJobs file index id cipher)
    (delivers : Delivers sent job) :
    job.index = sent.index ∧ ChunkPosition file index.toNat job.index.toNat ∧
      CarriesData file cipher.keystream job := by
  obtain ⟨buf, size, decoded⟩ := delivers
  obtain ⟨-, chunk, carries⟩ := readerJobs_sound id cipher fits within sent mem
  obtain ⟨-, job_index, data⟩ := carries.decodeFrame (by have := chunk.2.1; omega)
  rw [recv_frame size carries.1] at decoded
  rw [decoded] at job_index data
  have same : job.index = sent.index := UInt64.toNat_inj.mp job_index
  exact ⟨same, same ▸ chunk, by rw [CarriesData, same]; exact data⟩

/-! ## The invariant of the writer's loop -/

/-- The writer of a file from `first` on: its output is the file from there to its
position, its cipher stands at its position, and what it keeps are chunks ahead. -/
structure Writer.Sound (file : Bytes) (keystream : Keystream) (first : Nat) (w : Writer) :
    Prop where
  from_first : first ≤ w.position.toNat
  within : w.position.toNat ≤ file.length
  at_chunk : w.position.toNat < file.length → ChunkPosition file first w.position.toNat
  keystream_eq : w.cipher.keystream = keystream
  offset_eq : w.cipher.offset = w.position.toNat
  output_eq : w.output = (file.drop first).take (w.position.toNat - first)
  cached : ∀ index job, w.cache.lookup index = some job →
    job.index = index ∧ ChunkPosition file first index.toNat ∧ CarriesData file keystream job

namespace Writer

variable {file : Bytes} {keystream : Keystream} {first : Nat} {size : UInt64} {w : Writer}

theorem sound_start {startIndex : UInt64} (cipher : StreamCipher)
    (within : startIndex.toNat ≤ file.length) :
    (start startIndex cipher).Sound file cipher.keystream startIndex.toNat where
  from_first := Nat.le_refl _
  within := within
  at_chunk below := ⟨Nat.le_refl _, below, by simp [start]⟩
  keystream_eq := rfl
  offset_eq := rfl
  output_eq := by simp [start]
  cached index job found := by cases found

/-- Writing the chunk at the position keeps the invariant. -/
theorem Sound.writeData (sound : w.Sound file keystream first)
    (whole : size.toNat = file.length) {job : Receiver.Job} (here : job.index = w.position)
    (below : w.position.toNat < file.length) (carries : CarriesData file keystream job) :
    (w.writeData job.data size).Sound file keystream first := by
  have within : w.Within size := by
    have := sound.within
    unfold Within
    omega
  have len : lenAt size w.position.toNat = (chunkAt file w.position.toNat).length := by
    rw [lenAt, length_chunkAt, whole, Nat.min_comm]
  have count := length_chunkAt file w.position.toNat
  have position := position_writeData within job.data
  rw [len] at position
  obtain ⟨from_first, -, chunks, aligned⟩ := sound.at_chunk below
  -- decrypting the chunk at its position gives it back
  have chunk : (w.cipher.applyKeystream (job.data.take
      (min (size - w.position) (UInt64.ofNat transferBufferSize)).toNat)).1 =
        chunkAt file w.position.toNat := by
    rw [CarriesData, here] at carries
    rw [toNat_len within, len, carries, StreamCipher.applyKeystream, sound.keystream_eq,
      sound.offset_eq, Keystream.xorAt_xorAt]
  have taken : (job.data.take
      (min (size - w.position) (UInt64.ofNat transferBufferSize)).toNat).length =
        (chunkAt file w.position.toNat).length := by
    rw [← chunk, StreamCipher.length_applyKeystream]
  refine ⟨?_, ?_, ?_, sound.keystream_eq, ?_, ?_, sound.cached⟩
  · omega
  · omega
  · intro below'
    refine ⟨by omega, below', ?_⟩
    rw [position, count, Nat.min_eq_left (by omega),
      Nat.sub_add_comm from_first, aligned]
    exact ⟨chunks + 1, by rw [Nat.mul_succ]⟩
  · rw [position, Writer.writeData, StreamCipher.applyKeystream_offset, sound.offset_eq, taken]
  · have written : (w.writeData job.data size).output =
        w.output ++ chunkAt file w.position.toNat := by
      rw [Writer.writeData, chunk]
    have gap : w.position.toNat + (chunkAt file w.position.toNat).length - first =
        w.position.toNat - first + (chunkAt file w.position.toNat).length := by
      omega
    rw [written, position, gap, sound.output_eq, List.take_add, List.drop_drop,
      Nat.add_sub_cancel' from_first]
    congr 1
    rw [chunkAt, List.length_take, ← List.take_eq_take_min]

theorem Sound.drain {fuel : Nat} (sound : w.Sound file keystream first)
    (whole : size.toNat = file.length) :
    (w.drain size fuel).Sound file keystream first := by
  induction fuel generalizing w with
  | zero => exact sound
  | succ fuel ih =>
      rw [Writer.drain]
      cases found : w.cache.lookup w.position with
      | none => exact sound
      | some job =>
          obtain ⟨here, chunk, carries⟩ := sound.cached _ _ found
          have erased : Sound file keystream first
              { w with cache := w.cache.erase w.position } := by
            refine { sound with cached := fun index job found => ?_ }
            exact sound.cached index job (lookup_of_lookup_erase found)
          exact ih (erased.writeData whole here chunk.2.1 carries)

/-- A round of the loop keeps the invariant. -/
theorem Sound.handle (sound : w.Sound file keystream first)
    (whole : size.toNat = file.length) {job : Receiver.Job}
    (chunk : ChunkPosition file first job.index.toNat)
    (carries : CarriesData file keystream job) :
    (w.handle size job).Sound file keystream first := by
  rw [Writer.handle]
  split
  next => exact sound
  next notBehind =>
    split
    next =>
      refine { sound with cached := fun index kept found => ?_ }
      rcases lookup_insert_cases found with ⟨rfl, rfl⟩ | found
      · exact ⟨rfl, chunk, carries⟩
      · exact sound.cached index kept found
    next notAhead =>
      have here : job.index = w.position := by
        rw [UInt64.lt_iff_toNat_lt] at notBehind notAhead
        exact UInt64.toNat_inj.mp (by omega)
      have written := sound.writeData whole here (here ▸ chunk.2.1) carries
      have confirmed : ((w.writeData job.data size).confirm job.index).Sound
          file keystream first := { written with }
      exact confirmed.drain whole

/-! ## A whole run -/

/-- What the loop knows between two rounds. -/
structure Running (file : Bytes) (keystream : Keystream) (first : Nat) (w : Writer) : Prop
    extends w.Sound file keystream first where
  waiting : w.position ∉ w.cache

theorem Running.handle (running : w.Running file keystream first)
    (whole : size.toNat = file.length) {job : Receiver.Job}
    (chunk : ChunkPosition file first job.index.toNat)
    (carries : CarriesData file keystream job) :
    (w.handle size job).Running file keystream first ∧
      (w.handle size job).keys = w.keys.accept (lenAt size) job.index.toNat := by
  have within : w.Within size := by
    have := running.within
    unfold Within
    omega
  exact ⟨⟨running.toSound.handle whole chunk carries, waiting_handle within running.waiting job⟩,
    (keys_handle within running.waiting job).1⟩

/-- A round with any chunk of the file keeps the invariant: those before `first` are behind
the position. -/
theorem Running.handle_any (running : w.Running file keystream first)
    (whole : size.toNat = file.length) (begins : transferBufferSize ∣ first)
    {job : Receiver.Job} (aligned : transferBufferSize ∣ job.index.toNat)
    (below : job.index.toNat < file.length) (carries : CarriesData file keystream job) :
    (w.handle size job).Running file keystream first := by
  by_cases behind : job.index < w.position
  · have same : w.handle size job = w := by
      rw [Writer.handle, if_pos behind]
    rw [same]
    exact running
  · have ahead := UInt64.le_iff_toNat_le.mp (UInt64.not_lt.mp behind)
    have chunk : ChunkPosition file first job.index.toNat :=
      ⟨Nat.le_trans running.from_first ahead, below, Nat.dvd_sub aligned begins⟩
    exact (running.handle whole chunk carries).1

/-- A run keeps the invariant, and until it is complete everything delivered has been
accepted. -/
theorem Running.run (running : w.Running file keystream first)
    (whole : size.toNat = file.length) {delivered : List Receiver.Job}
    (chunks : ∀ job ∈ delivered, ChunkPosition file first job.index.toNat ∧
      CarriesData file keystream job) :
    (w.run size delivered).Running file keystream first ∧
      ((w.run size delivered).position = size ∨
        ∀ i, w.keys.Accepted (lenAt size) i ∨ (∃ job ∈ delivered, job.index.toNat = i) →
          (w.run size delivered).keys.Accepted (lenAt size) i) := by
  induction delivered generalizing w with
  | nil => exact ⟨running, .inr fun i h => h.resolve_right (by simp)⟩
  | cons job rest ih =>
      rw [Writer.run]
      split
      next complete => exact ⟨running, .inl complete⟩
      next =>
        obtain ⟨chunk, carries⟩ := chunks job List.mem_cons_self
        obtain ⟨running', keys⟩ := running.handle whole chunk carries
        obtain ⟨sound, accepted⟩ :=
          ih running' fun other mem => chunks other (List.mem_cons_of_mem _ mem)
        refine ⟨sound, accepted.imp_right fun kept i h => kept i ?_⟩
        rw [keys]
        rcases h with before | ⟨other, mem, rfl⟩
        · exact .inl before.accept
        · rcases List.mem_cons.mp mem with rfl | mem
          · exact .inl Reorder.accepted_accept
          · exact .inr ⟨other, mem, rfl⟩

/-- Once every chunk has been accepted the loop has exited. -/
theorem Running.complete (running : w.Running file keystream first)
    (whole : size.toNat = file.length)
    (all : w.position = size ∨
      ∀ i, ChunkPosition file first i → w.keys.Accepted (lenAt size) i) :
    w.position = size := by
  rcases all with complete | accepted
  · exact complete
  · have waiting : w.keys.position ∉ w.keys.cache :=
      fun mem => running.waiting (mem_keySet.mp mem)
    have reached : file.length ≤ w.keys.position := by
      refine Reorder.reaches_stop waiting ?_ fun below =>
        accepted _ (running.at_chunk below)
      intro p below
      have : 0 < transferBufferSize := by decide
      unfold lenAt
      omega
    have position_eq : w.keys.position = w.position.toNat := rfl
    have := running.within
    exact UInt64.toNat_inj.mp (by omega)

/-- The loop over a drawing from the reader's jobs keeps the invariant, and exits once
every job has been delivered. -/
theorem run_start {startIndex : UInt64} {id : UInt32} {ends : Option Nat}
    {delivered : List Receiver.Job} (whole : size.toNat = file.length)
    (within : startIndex.toNat ≤ file.length)
    (drawn : ∀ job ∈ delivered,
      ∃ sent ∈ readerJobs file startIndex id ⟨keystream, 0, ends⟩, Delivers sent job) :
    ((start startIndex ⟨keystream, 0, ends⟩).run size delivered).Running file keystream
        startIndex.toNat ∧
      ((∀ sent ∈ readerJobs file startIndex id ⟨keystream, 0, ends⟩,
          ∃ job ∈ delivered, Delivers sent job) →
        ((start startIndex ⟨keystream, 0, ends⟩).run size delivered).position = size) := by
  have fits : file.length < 2 ^ 64 := whole ▸ size.toNat_lt
  have running : (start startIndex ⟨keystream, 0, ends⟩).Running file keystream startIndex.toNat :=
    ⟨sound_start ⟨keystream, 0, ends⟩ within, AList.notMem_empty _⟩
  have chunks : ∀ job ∈ delivered, ChunkPosition file startIndex.toNat job.index.toNat ∧
      CarriesData file keystream job := by
    intro job mem
    obtain ⟨sent, sent_mem, delivers⟩ := drawn job mem
    exact (delivers.carries fits within sent_mem).2
  obtain ⟨result, accepted⟩ := running.run whole chunks
  refine ⟨result, fun all => ?_⟩
  refine result.complete whole (accepted.imp_right fun kept i chunk => kept i (.inr ?_))
  obtain ⟨sent, sent_mem, rfl⟩ := readerJobs_complete id ⟨keystream, 0, ends⟩ fits within i chunk
  obtain ⟨job, mem, delivers⟩ := all sent sent_mem
  exact ⟨job, mem, by rw [(delivers.carries fits within sent_mem).1]⟩

/-- A writer that has exited its loop has written the rest of the file. -/
theorem Running.output_complete (running : w.Running file keystream first)
    (whole : size.toNat = file.length) (complete : w.position = size) :
    w.output = file.drop first := by
  rw [running.output_eq, complete, whole]
  exact List.take_of_length_le (by rw [List.length_drop])

end Writer

/-- **End-to-end reassembly.**  Whatever jobs the reader's jobs for a file are delivered
as, in any order, with omissions and duplications: the writer's output is the file from
the start index to its position, its cipher stands at its position, and once every job
has been delivered the loop has exited and the output is the rest of the file.  Where a
keystream ends, `run` does not stop as a task does; it never comes there under
`Writer.Covered`. -/
theorem reassembly {file : Bytes} {startIndex size : UInt64} {id : UInt32}
    {keystream : Keystream} {ends : Option Nat} {delivered : List Receiver.Job}
    (whole : size.toNat = file.length) (within : startIndex ≤ size)
    (drawn : ∀ job ∈ delivered,
      ∃ sent ∈ readerJobs file startIndex id ⟨keystream, 0, ends⟩, Delivers sent job) :
    let w := (Writer.start startIndex ⟨keystream, 0, ends⟩).run size delivered
    startIndex ≤ w.position ∧ w.position ≤ size ∧
      w.output = (file.drop startIndex.toNat).take (w.position.toNat - startIndex.toNat) ∧
      w.cipher.offset = w.position.toNat ∧
      ((∀ sent ∈ readerJobs file startIndex id ⟨keystream, 0, ends⟩,
          ∃ job ∈ delivered, Delivers sent job) →
        w.position = size ∧ w.output = file.drop startIndex.toNat) := by
  intro w
  have within' : startIndex.toNat ≤ file.length := whole ▸ UInt64.le_iff_toNat_le.mp within
  obtain ⟨running, complete⟩ := Writer.run_start whole within' drawn
  refine ⟨UInt64.le_iff_toNat_le.mpr running.from_first,
    UInt64.le_iff_toNat_le.mpr (whole ▸ running.within), running.output_eq,
    running.offset_eq, ?_⟩
  intro all
  exact ⟨complete all, running.output_complete whole (complete all)⟩

/-- A keystream that counts. -/
def countingKeystream : Keystream := fun p => UInt8.ofNat p

/-- Bytes of three chunks, the last one not full, and the jobs the reader makes of them. -/
def threeChunks : Bytes := List.replicate 2500 7

def threeJobs : List Receiver.Job :=
  (readerJobs threeChunks 0 7 ⟨countingKeystream, 0, none⟩).map fun sent =>
    (Receiver.decodeFrame sent.data).2

/-- Three chunks, delivered the last one first, and then all of them again. -/
theorem reassembly_reversed_twice :
    ((Writer.start 0 ⟨countingKeystream, 0, none⟩).run 2500
      (threeJobs.reverse ++ threeJobs)).output = threeChunks := by
  have whole : (2500 : UInt64).toNat = threeChunks.length := by
    rw [threeChunks, List.length_replicate]
    rfl
  have fits : threeChunks.length < 2 ^ 64 := by
    rw [← whole]
    decide
  have delivers : ∀ sent ∈ readerJobs threeChunks 0 7 ⟨countingKeystream, 0, none⟩,
      Delivers sent (Receiver.decodeFrame sent.data).2 :=
    fun sent mem => delivers_decodeFrame fits (Nat.zero_le _) mem
  have all := @reassembly threeChunks 0 2500 7 countingKeystream none
    (threeJobs.reverse ++ threeJobs) whole (by decide) (fun job mem => by
      have listed : job ∈ threeJobs := by simpa using mem
      obtain ⟨sent, sent_mem, rfl⟩ := List.mem_map.mp listed
      exact ⟨sent, sent_mem, delivers sent sent_mem⟩)
  refine (all.2.2.2.2 fun sent mem => ⟨_, ?_, delivers sent mem⟩).2
  exact List.mem_append_right _ (List.mem_map.mpr ⟨sent, mem, rfl⟩)

end Cccp
