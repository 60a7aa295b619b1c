import Cccp.Basic
import Cccp.Lib.Keystream

/-!
# Reading a file into jobs

`sender::reader` reads its file chunk by chunk, encrypts each chunk at its
position and queues it as one frame: id, index and data.  It writes every chunk
into the same buffer, so a short last chunk is followed by bytes of the chunk
before it.

`readerJobs_sound` and `readerJobs_complete` describe the jobs of a whole run: one for
each chunk of the file from the start index on.
-/

namespace Cccp

namespace Sender

/-- A job of the sender; `data` is the frame that is sent. -/
structure Job where
  data : Bytes
  index : UInt64
  id : UInt32
  deriving DecidableEq

end Sender

/-! ## The buffered source -/

/-- `BufReader` over a file: the bytes read ahead, and where the file stands. -/
structure BufReader where
  file : Bytes
  filePosition : Nat
  buffer : Bytes

namespace BufReader

/-- `seek(SeekFrom::Start(position))`, which drops what was read ahead. -/
def seek (reader : BufReader) (position : Nat) : BufReader :=
  { reader with filePosition := position, buffer := [] }

/-- `fill_buf`: read ahead up to the capacity, if nothing is left. -/
def fillBuf (reader : BufReader) : BufReader :=
  if reader.buffer = [] then
    let got := (reader.file.drop reader.filePosition).take readBufferSize
    { reader with filePosition := reader.filePosition + got.length, buffer := got }
  else reader

/-- `read` into a buffer of `len` bytes, fewer than the capacity. -/
def read (reader : BufReader) (len : Nat) : Bytes × BufReader :=
  let filled := reader.fillBuf
  (filled.buffer.take len, { filled with buffer := filled.buffer.drop len })

end BufReader

/-! ## The reader -/

/-- The variables of `reader`'s loop. -/
structure Reader where
  source : BufReader
  index : UInt64
  cipher : StreamCipher
  buffer : Bytes

namespace Reader

/-- The reader before its loop: seeked to `index`, with the id in its buffer. -/
def start (file : Bytes) (index : UInt64) (id : UInt32) (cipher : StreamCipher) : Reader where
  source := BufReader.seek ⟨file, 0, []⟩ index.toNat
  index := index
  cipher := cipher.seek index.toNat
  buffer := Bytes.splice (List.replicate frameSize 0) 0 (Bytes.toBE idSize id.toNat)

/-- The buffer with an index and encrypted data written into it. -/
def frame (buffer : Bytes) (index : UInt64) (data : Bytes) : Bytes :=
  Bytes.splice (Bytes.splice buffer idSize (Bytes.toBE indexSize index.toNat))
    (idSize + indexSize) data

/-- One iteration of the loop: the job it queues, or `none` at the end of the file. -/
def next (r : Reader) (id : UInt32) : Option (Sender.Job × Reader) :=
  let read := r.source.read transferBufferSize
  if read.1.length = 0 then none
  else
    let encrypted := r.cipher.applyKeystream read.1
    let buffer := frame r.buffer r.index encrypted.1
    some ({ data := buffer, index := r.index, id := id },
      { source := read.2
        index := r.index + UInt64.ofNat read.1.length
        cipher := encrypted.2
        buffer := buffer })

theorem next_id {r r' : Reader} {id : UInt32} {job : Sender.Job}
    (read : r.next id = some (job, r')) : job.id = id := by
  simp only [next] at read
  split at read
  next => cases read
  next => cases read; rfl

theorem next_ends {r r' : Reader} {id : UInt32} {job : Sender.Job}
    (read : r.next id = some (job, r')) : r'.cipher.ends = r.cipher.ends := by
  simp only [next] at read
  split at read
  next => cases read
  next => cases read; rfl

/-- The jobs of the next `fuel` iterations. -/
def jobs (id : UInt32) : Nat → Reader → List Sender.Job
  | 0, _ => []
  | fuel + 1, r =>
      match r.next id with
      | none => []
      | some (job, r') => job :: jobs id fuel r'

end Reader

/-- All jobs `reader` queues for a file.  Every iteration but the last reads at least
one byte, so a byte's worth of iterations more than there are bytes is enough. -/
def readerJobs (file : Bytes) (index : UInt64) (id : UInt32) (cipher : StreamCipher) :
    List Sender.Job :=
  Reader.jobs id (file.length + 1) (Reader.start file index id cipher)

/-! ## Chunks of a file -/

/-- The chunk of a file at a position. -/
def chunkAt (file : Bytes) (position : Nat) : Bytes :=
  (file.drop position).take transferBufferSize

theorem length_chunkAt (file : Bytes) (position : Nat) :
    (chunkAt file position).length = min transferBufferSize (file.length - position) := by
  simp [chunkAt]

/-- What a frame holds of the chunk at `position`: the id, the index, and the encrypted
chunk, followed by bytes that do not matter. -/
def CarriesChunk (file : Bytes) (id : UInt32) (keystream : Keystream) (position : Nat)
    (frame : Bytes) : Prop :=
  frame.length = frameSize ∧
  frame.take idSize = Bytes.toBE idSize id.toNat ∧
  (frame.drop idSize).take indexSize = Bytes.toBE indexSize position ∧
  (frame.drop (idSize + indexSize)).take (chunkAt file position).length =
    keystream.xorAt position (chunkAt file position)

/-! ## One iteration -/

/-- A buffered source at `position`: what is read ahead starts there and ends at a chunk
boundary or at the end of the file. -/
structure BufReader.At (file : Bytes) (position : Nat) (source : BufReader) : Prop where
  file_eq : source.file = file
  ahead : position ≤ source.filePosition
  within : source.filePosition ≤ file.length
  buffered : source.buffer = (file.drop position).take (source.filePosition - position)
  aligned : transferBufferSize ∣ source.filePosition - position ∨
    source.filePosition = file.length

theorem BufReader.at_seek {file : Bytes} {position : Nat} (within : position ≤ file.length)
    (filePosition : Nat) (buffer : Bytes) :
    BufReader.At file position (BufReader.seek ⟨file, filePosition, buffer⟩ position) where
  file_eq := rfl
  ahead := Nat.le_refl _
  within := within
  buffered := by simp [BufReader.seek]
  aligned := .inl (by simp [BufReader.seek])

/-- After a fill a whole chunk is read ahead, or the rest of the file. -/
theorem BufReader.At.fillBuf {file : Bytes} {position : Nat} {source : BufReader}
    (at_ : source.At file position) :
    source.fillBuf.At file position ∧
      (transferBufferSize ≤ source.fillBuf.filePosition - position ∨
        source.fillBuf.filePosition = file.length) := by
  obtain ⟨rfl, ahead, within, buffered, aligned⟩ := at_
  rw [BufReader.fillBuf]
  split
  next empty =>
    have count := congrArg List.length (buffered.symm.trans empty)
    simp only [List.length_take, List.length_drop, List.length_nil] at count
    have here : source.filePosition = position := by omega
    have chunks : readBufferSize = transferBufferSize * 100 := rfl
    refine ⟨⟨rfl, ?_, ?_, ?_, ?_⟩, ?_⟩
    · simp only [here]
      omega
    · simp only [List.length_take, List.length_drop, here]
      omega
    · simp only [here, Nat.add_sub_cancel_left, List.length_take]
      exact (List.take_eq_take_min ..)
    · simp only [here, Nat.add_sub_cancel_left, List.length_take, List.length_drop]
      rcases Nat.le_total readBufferSize (source.file.length - position) with full | rest
      · left
        rw [Nat.min_eq_left full]
        exact ⟨100, chunks⟩
      · right
        rw [Nat.min_eq_right rest]
        omega
    · simp only [here, Nat.add_sub_cancel_left, List.length_take, List.length_drop]
      omega
  next nonempty =>
    refine ⟨⟨rfl, ahead, within, buffered, aligned⟩, ?_⟩
    refine aligned.imp_left fun chunks => Nat.le_of_dvd ?_ chunks
    by_contra none_
    apply nonempty
    rw [buffered, show source.filePosition - position = 0 by omega, List.take_zero]

/-- A read returns the chunk at the position and moves past it. -/
theorem BufReader.At.read {file : Bytes} {position : Nat} {source : BufReader}
    (at_ : source.At file position) :
    (source.read transferBufferSize).1 = chunkAt file position ∧
      (source.read transferBufferSize).2.At file
        (position + (chunkAt file position).length) := by
  obtain ⟨⟨file_eq, ahead, within, buffered, aligned⟩, full⟩ := at_.fillBuf
  rw [length_chunkAt, BufReader.read]
  generalize source.fillBuf = filled at *
  refine ⟨?_, file_eq, ?_, within, ?_, ?_⟩
  · simp only [buffered, List.take_take, chunkAt]
    rcases full with chunk | rest
    · rw [Nat.min_eq_left chunk]
    · rw [rest, ← List.length_drop, ← List.take_eq_take_min]
  · show position + min transferBufferSize (file.length - position) ≤ filled.filePosition
    omega
  · show filled.buffer.drop transferBufferSize = _
    rw [buffered, List.drop_take, List.drop_drop]
    rcases full with chunk | rest
    · rw [Nat.min_eq_left (by omega), Nat.sub_sub]
    · rcases Nat.le_total transferBufferSize (file.length - position) with inside | short
      · rw [Nat.min_eq_left inside, Nat.sub_sub]
      · rw [Nat.min_eq_right short, show filled.filePosition - position - transferBufferSize = 0
          by omega, show filled.filePosition - (position + (file.length - position)) = 0
          by omega]
        simp
  · show transferBufferSize ∣ filled.filePosition -
        (position + min transferBufferSize (file.length - position)) ∨ _
    rcases full with chunk | rest
    · refine aligned.imp_left fun chunks => ?_
      rw [Nat.min_eq_left (by omega), ← Nat.sub_sub]
      exact Nat.dvd_sub chunks (Nat.dvd_refl _)
    · exact .inr rest

/-- The loop invariant of `reader` at `position`. -/
structure Reader.At (file : Bytes) (id : UInt32) (keystream : Keystream) (position : Nat)
    (r : Reader) : Prop where
  source_at : r.source.At file position
  index_eq : r.index.toNat = position
  keystream_eq : r.cipher.keystream = keystream
  offset_eq : r.cipher.offset = position
  buffer_length : r.buffer.length = frameSize
  buffer_id : r.buffer.take idSize = Bytes.toBE idSize id.toNat

namespace Reader

variable {file : Bytes} {id : UInt32} {position : Nat}

theorem at_start {index : UInt64} (cipher : StreamCipher)
    (within : index.toNat ≤ file.length) :
    (start file index id cipher).At file id cipher.keystream index.toNat where
  source_at := BufReader.at_seek within _ _
  index_eq := rfl
  keystream_eq := rfl
  offset_eq := rfl
  buffer_length := by
    rw [start, Bytes.length_splice]
    · exact List.length_replicate
    · rw [Bytes.length_toBE, List.length_replicate]
      decide
  buffer_id := by
    have taken : ((Bytes.splice (List.replicate frameSize 0) 0
        (Bytes.toBE idSize id.toNat)).drop 0).take (Bytes.toBE idSize id.toNat).length =
          Bytes.toBE idSize id.toNat := Bytes.take_drop_splice (Nat.zero_le _)
    rwa [List.drop_zero, Bytes.length_toBE] at taken

theorem At.next_end {keystream : Keystream} {r : Reader}
    (at_ : r.At file id keystream position) (done : file.length ≤ position) :
    r.next id = none := by
  have read := at_.source_at.read.1
  have empty : (chunkAt file position).length = 0 := by
    rw [length_chunkAt]
    omega
  rw [next, read, if_pos empty]

/-- A frame holds the id its buffer held, the index and the data. -/
theorem frame_spec {buffer : Bytes} (index : UInt64) (data : Bytes) (size : buffer.length = frameSize)
    (fits : data.length ≤ transferBufferSize) :
    (frame buffer index data).length = frameSize ∧
      (frame buffer index data).take idSize = buffer.take idSize ∧
      ((frame buffer index data).drop idSize).take indexSize =
        Bytes.toBE indexSize index.toNat ∧
      ((frame buffer index data).drop (idSize + indexSize)).take data.length = data := by
  have sizes : frameSize = idSize + indexSize + transferBufferSize := rfl
  have indexBytes : (Bytes.toBE indexSize index.toNat).length = indexSize :=
    Bytes.length_toBE _ _
  have id_fits : idSize ≤ buffer.length := by omega
  have indexed_length :
      (Bytes.splice buffer idSize (Bytes.toBE indexSize index.toNat)).length = frameSize := by
    rw [Bytes.length_splice (by omega), size]
  have data_fits : idSize + indexSize ≤
      (Bytes.splice buffer idSize (Bytes.toBE indexSize index.toNat)).length := by
    omega
  -- the data stands behind the id and the index
  have front : (frame buffer index data).take (idSize + indexSize) =
      (Bytes.splice buffer idSize (Bytes.toBE indexSize index.toNat)).take
        (idSize + indexSize) :=
    Bytes.take_splice data_fits
  refine ⟨?_, ?_, ?_, Bytes.take_drop_splice data_fits⟩
  · rw [frame, Bytes.length_splice (by omega), indexed_length]
  · calc (frame buffer index data).take idSize
        = ((frame buffer index data).take (idSize + indexSize)).take idSize := by
          rw [List.take_take, Nat.min_eq_left (Nat.le_add_right _ _)]
      _ = (Bytes.splice buffer idSize (Bytes.toBE indexSize index.toNat)).take idSize := by
          rw [front, List.take_take, Nat.min_eq_left (Nat.le_add_right _ _)]
      _ = buffer.take idSize := Bytes.take_splice id_fits
  · have kept := congrArg (List.drop idSize) front
    rw [List.drop_take, List.drop_take, Nat.add_sub_cancel_left] at kept
    have written : ((Bytes.splice buffer idSize (Bytes.toBE indexSize index.toNat)).drop
        idSize).take (Bytes.toBE indexSize index.toNat).length =
          Bytes.toBE indexSize index.toNat := Bytes.take_drop_splice id_fits
    rw [indexBytes] at written
    rw [kept, written]

/-- One iteration before the end of the file queues the chunk at the position and moves
past it. -/
theorem At.next {keystream : Keystream} {r : Reader} (at_ : r.At file id keystream position)
    (fits : file.length < 2 ^ 64) (more : position < file.length) :
    ∃ job r', r.next id = some (job, r') ∧ job.id = id ∧ job.index.toNat = position ∧
      CarriesChunk file id keystream position job.data ∧
      r'.At file id keystream (position + (chunkAt file position).length) := by
  obtain ⟨read, source_at⟩ := at_.source_at.read
  have count := length_chunkAt file position
  have chunk_pos : (chunkAt file position).length ≠ 0 := by
    have : 0 < transferBufferSize := by decide
    omega
  have encrypted : (r.cipher.applyKeystream (chunkAt file position)).1 =
      keystream.xorAt position (chunkAt file position) := by
    rw [StreamCipher.applyKeystream, at_.keystream_eq, at_.offset_eq]
  have encrypted_length :
      (keystream.xorAt position (chunkAt file position)).length =
        (chunkAt file position).length := keystream.length_xorAt _ _
  obtain ⟨length, idBytes, indexBytes, dataBytes⟩ :=
    frame_spec r.index (keystream.xorAt position (chunkAt file position))
      at_.buffer_length (by omega)
  rw [at_.index_eq] at indexBytes
  rw [encrypted_length] at dataBytes
  rw [at_.buffer_id] at idBytes
  simp only [Reader.next, read, if_neg chunk_pos, encrypted]
  refine ⟨_, _, rfl, rfl, at_.index_eq, ⟨length, idBytes, indexBytes, dataBytes⟩,
    ⟨source_at, ?_, at_.keystream_eq, ?_, length, idBytes⟩⟩
  · rw [UInt64.toNat_add, at_.index_eq, UInt64.toNat_ofNat', Nat.mod_eq_of_lt,
      Nat.mod_eq_of_lt] <;> omega
  · rw [StreamCipher.applyKeystream_offset, at_.offset_eq]

/-! ## A whole run -/

/-- A position where `reader`, started at `first`, reads a chunk. -/
def ChunkPosition (file : Bytes) (first position : Nat) : Prop :=
  first ≤ position ∧ position < file.length ∧ transferBufferSize ∣ position - first

/-- The chunk positions from one chunk on are that chunk and those from the next on. -/
theorem chunkPosition_step (more : position < file.length) {p : Nat} :
    ChunkPosition file position p ↔
      p = position ∨ ChunkPosition file (position + (chunkAt file position).length) p := by
  have pos : 0 < transferBufferSize := by decide
  rw [length_chunkAt]
  constructor
  · rintro ⟨from_, below, k, aligned⟩
    cases k with
    | zero => left; omega
    | succ k =>
        rw [Nat.mul_succ] at aligned
        refine .inr ⟨by omega, below, k, by omega⟩
  · rintro (rfl | ⟨from_, below, k, aligned⟩)
    · exact ⟨Nat.le_refl _, more, by simp⟩
    · refine ⟨by omega, below, k + 1, ?_⟩
      rw [Nat.mul_succ]
      omega

/-- The reader, started at `first`, has ended, or stands at a chunk boundary or at the end
of its file. -/
def Walks (file : Bytes) (first : Nat) (id : UInt32) (r : Reader) : Prop :=
  r.next id = none ∨ ∃ keystream position, r.At file id keystream position ∧
    first ≤ position ∧ (transferBufferSize ∣ position - first ∨ file.length ≤ position)

theorem walks_start (file : Bytes) (index : UInt64) (id : UInt32) (cipher : StreamCipher) :
    (start file index id cipher).Walks file index.toNat id := by
  rcases Nat.lt_or_ge file.length index.toNat with past | within
  · left
    have none_ : file.drop index.toNat = [] := List.drop_of_length_le (by omega)
    simp [next, start, BufReader.seek, BufReader.read, BufReader.fillBuf, none_]
  · exact .inr ⟨_, _, at_start cipher within, Nat.le_refl _, .inl (by simp)⟩

/-- What one iteration queues, and where it leaves the reader. -/
theorem Walks.next {first : Nat} {r r' : Reader} {job : Sender.Job}
    (walks : r.Walks file first id) (fits : file.length < 2 ^ 64)
    (read : r.next id = some (job, r')) :
    job.id = id ∧ job.index = r.index ∧ r.index < r'.index ∧
      ChunkPosition file first job.index.toNat ∧
      (∃ keystream, CarriesChunk file id keystream job.index.toNat job.data) ∧
      r'.Walks file first id := by
  rcases walks with ended | ⟨keystream, position, at_, from_, aligned⟩
  · cases ended.symm.trans read
  · have more : position < file.length := by
      by_contra done
      cases (at_.next_end (by omega)).symm.trans read
    obtain ⟨job', next', same, job_id, index, carries, at'⟩ := at_.next fits more
    cases same.symm.trans read
    have chunk : ChunkPosition file first position :=
      ⟨from_, more, aligned.resolve_right (by omega)⟩
    have count := length_chunkAt file position
    have chunkPos : 0 < transferBufferSize := by decide
    refine ⟨job_id, ?_, ?_, index ▸ chunk, ⟨keystream, index ▸ carries⟩,
      .inr ⟨_, _, at', by omega, ?_⟩⟩
    · exact UInt64.toNat_inj.mp (index.trans at_.index_eq.symm)
    · rw [UInt64.lt_iff_toNat_lt, at_.index_eq, at'.index_eq]
      omega
    · rw [count]
      rcases Nat.le_total transferBufferSize (file.length - position) with full | rest
      · left
        rw [Nat.min_eq_left full, Nat.sub_add_comm from_]
        exact Nat.dvd_add chunk.2.2 (Nat.dvd_refl _)
      · right
        omega

/-- Every job of a run carries a chunk, and every chunk has a job. -/
theorem At.jobs {keystream : Keystream} {r : Reader} {fuel : Nat}
    (at_ : r.At file id keystream position) (fits : file.length < 2 ^ 64)
    (enough : file.length - position < fuel) :
    (∀ job ∈ jobs id fuel r, job.id = id ∧ ChunkPosition file position job.index.toNat ∧
      CarriesChunk file id keystream job.index.toNat job.data) ∧
    (∀ p, ChunkPosition file position p → ∃ job ∈ jobs id fuel r, job.index.toNat = p) := by
  induction fuel generalizing position r with
  | zero => omega
  | succ fuel ih =>
      rw [Reader.jobs]
      by_cases more : position < file.length
      · obtain ⟨job, r', next, job_id, index, carries, at'⟩ := at_.next fits more
        have progress : 0 < (chunkAt file position).length := by
          have : 0 < transferBufferSize := by decide
          rw [length_chunkAt]
          omega
        obtain ⟨sound, complete⟩ := ih at' (by omega)
        simp only [next]
        constructor
        · intro other mem
          rcases List.mem_cons.mp mem with rfl | mem
          · refine ⟨job_id, ?_, index ▸ carries⟩
            rw [index]
            exact (chunkPosition_step more).mpr (.inl rfl)
          · obtain ⟨other_id, chunk, carries⟩ := sound other mem
            exact ⟨other_id, (chunkPosition_step more).mpr (.inr chunk), carries⟩
        · intro p chunk
          rcases (chunkPosition_step more).mp chunk with rfl | chunk
          · exact ⟨job, List.mem_cons_self, index⟩
          · obtain ⟨other, mem, same⟩ := complete p chunk
            exact ⟨other, List.mem_cons_of_mem _ mem, same⟩
      · simp only [at_.next_end (by omega)]
        constructor
        · intro job mem
          cases mem
        · rintro p ⟨from_, below, -⟩
          omega

/-- The loop has ended: more iterations add nothing. -/
theorem At.jobs_enough {keystream : Keystream} {r : Reader} {fuel : Nat}
    (at_ : r.At file id keystream position) (fits : file.length < 2 ^ 64)
    (enough : file.length - position < fuel) (extra : Nat) :
    Reader.jobs id (fuel + extra) r = Reader.jobs id fuel r := by
  induction fuel generalizing position r with
  | zero => omega
  | succ fuel ih =>
      rw [Nat.succ_add, Reader.jobs, Reader.jobs]
      by_cases more : position < file.length
      · obtain ⟨job, r', next, -, -, -, at'⟩ := at_.next fits more
        have progress : 0 < (chunkAt file position).length := by
          have : 0 < transferBufferSize := by decide
          rw [length_chunkAt]
          omega
        simp only [next, ih at' (by omega)]
      · simp only [at_.next_end (by omega)]

end Reader

section

variable {file : Bytes} {index : UInt64} (id : UInt32) (cipher : StreamCipher)

/-- Every job of `reader` carries the chunk at its index. -/
theorem readerJobs_sound (fits : file.length < 2 ^ 64) (within : index.toNat ≤ file.length) :
    ∀ job ∈ readerJobs file index id cipher,
      job.id = id ∧ Reader.ChunkPosition file index.toNat job.index.toNat ∧
        CarriesChunk file id cipher.keystream job.index.toNat job.data :=
  ((Reader.at_start cipher within).jobs fits (by omega)).1

/-- `reader` queues a job for every chunk from its start index on. -/
theorem readerJobs_complete (fits : file.length < 2 ^ 64)
    (within : index.toNat ≤ file.length) :
    ∀ p, Reader.ChunkPosition file index.toNat p →
      ∃ job ∈ readerJobs file index id cipher, job.index.toNat = p :=
  ((Reader.at_start cipher within).jobs fits (by omega)).2

/-- The fuel of `readerJobs` is enough for the loop to reach the end of the file. -/
theorem readerJobs_enough (fits : file.length < 2 ^ 64) (within : index.toNat ≤ file.length)
    (extra : Nat) :
    Reader.jobs id (file.length + 1 + extra) (Reader.start file index id cipher) =
      readerJobs file index id cipher :=
  (Reader.at_start cipher within).jobs_enough fits (by omega) extra

end

end Cccp
