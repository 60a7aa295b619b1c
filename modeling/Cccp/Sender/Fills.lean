import Cccp.Lib.Collections
import Cccp.Lib.Tiling
import Cccp.Sender.Reader
import Mathlib.Algebra.Order.BigOperators.Group.List

/-!
# Reading a file that answers with fewer bytes

`BufReader` asks the file for as many bytes as it can hold, and takes what it gets; `reader`
asks the `BufReader` for a chunk, and takes what is left of the last fill.  `Fills` is what a
file may answer.

`tiles_iff`: the jobs are the chunks of the file exactly if every fill but the last is a
multiple of a chunk.
-/

namespace Cccp

open Tiling

/-- What the reads of a file return of which `remaining` bytes are left: each some bytes, no
more than were asked for, and together all of them.  After that they return none. -/
structure Fills (remaining : Nat) where
  counts : List Nat
  some_ : ∀ n ∈ counts, 0 < n
  fits : ∀ n ∈ counts, n ≤ readBufferSize
  total : counts.sum = remaining

/-! ## The reader -/

/-- `fill_buf`, where the next read of the file returns the first of `counts`. -/
def BufReader.fillBufFrom (source : BufReader) (counts : List Nat) : BufReader × List Nat :=
  if source.buffer = [] then
    match counts with
    | [] => (source, [])
    | n :: counts =>
        let got := (source.file.drop source.filePosition).take n
        ({ source with filePosition := source.filePosition + got.length, buffer := got }, counts)
  else (source, counts)

/-- The rest of an iteration of `reader`'s loop, after it has read. -/
def Reader.queueRead (r : Reader) (id : UInt32) (read : Bytes × BufReader) :
    Option (Sender.Job × Reader) :=
  if read.1.length = 0 then none
  else
    let encrypted := r.cipher.applyKeystream read.1
    let buffer := frame r.buffer r.index encrypted.1
    some ({ data := buffer, index := r.index, id := id },
      { source := read.2
        index := r.index + UInt64.ofNat read.1.length
        cipher := encrypted.2
        buffer := buffer })

theorem Reader.next_eq_queueRead (r : Reader) (id : UInt32) :
    r.next id = r.queueRead id (r.source.read transferBufferSize) := rfl

/-- A reader, and what the next reads of its file return. -/
structure PacedReader where
  reader : Reader
  counts : List Nat

namespace PacedReader

/-- One iteration of the loop. -/
def next (r : PacedReader) (id : UInt32) : Option (Sender.Job × PacedReader) :=
  let filled := r.reader.source.fillBufFrom r.counts
  let read := (filled.1.buffer.take transferBufferSize,
    { filled.1 with buffer := filled.1.buffer.drop transferBufferSize })
  (r.reader.queueRead id read).map fun queued => (queued.1, ⟨queued.2, filled.2⟩)

/-- The jobs of the next `fuel` iterations. -/
def jobs (id : UInt32) : Nat → PacedReader → List Sender.Job
  | 0, _ => []
  | fuel + 1, r =>
      match r.next id with
      | none => []
      | some (job, r') => job :: jobs id fuel r'

end PacedReader

/-- All jobs `reader` queues for a file that answers with these fills. -/
def pacedJobs (file : Bytes) (index : UInt64) (id : UInt32) (cipher : StreamCipher)
    (fills : Fills (file.length - index.toNat)) : List Sender.Job :=
  PacedReader.jobs id (file.length + 1) ⟨Reader.start file index id cipher, fills.counts⟩

/-- What a frame holds of `len` bytes of the file that were read at `position`. -/
def CarriesRead (file : Bytes) (id : UInt32) (keystream : Keystream) (position len : Nat)
    (frame : Bytes) : Prop :=
  frame.length = frameSize ∧
  frame.take idSize = Bytes.toBE idSize id.toNat ∧
  (frame.drop idSize).take indexSize = Bytes.toBE indexSize position ∧
  (frame.drop (idSize + indexSize)).take len =
    keystream.xorAt position ((file.drop position).take len)

/-- What is left of a stretch of the file when the next bytes were taken. -/
theorem drop_stretch (file : Bytes) (position len count : Nat) :
    ((file.drop position).take len).drop count =
      (file.drop (position + min count len)).take (len - min count len) := by
  rw [List.drop_take, List.drop_drop]
  rcases Nat.le_total count len with enough | short
  · rw [Nat.min_eq_left enough]
  · rw [Nat.min_eq_right short, Nat.sub_self, Nat.sub_eq_zero_of_le short, List.take_zero,
      List.take_zero]

theorem carriesChunk_of_carriesRead {file frame : Bytes} {id : UInt32} {keystream : Keystream}
    {position : Nat}
    (carries : CarriesRead file id keystream position (chunkAt file position).length frame) :
    CarriesChunk file id keystream position frame := by
  have chunk : (file.drop position).take (chunkAt file position).length =
      chunkAt file position := by
    rw [chunkAt, List.length_take, ← List.take_eq_take_min]
  rwa [CarriesRead, chunk] at carries

namespace PacedReader

variable {file : Bytes} {id : UInt32} {keystream : Keystream} {position : Nat} {r : PacedReader}

/-- What the reader will read, in one iteration each. -/
def left (r : PacedReader) (position : Nat) : List Nat :=
  tiles transferBufferSize (r.reader.source.filePosition - position) ++
    r.counts.flatMap (tiles transferBufferSize)

/-- The loop invariant of `reader` at `position`, whatever the file answers. -/
structure At (file : Bytes) (id : UInt32) (keystream : Keystream) (position : Nat)
    (r : PacedReader) : Prop where
  file_eq : r.reader.source.file = file
  ahead : position ≤ r.reader.source.filePosition
  buffered : r.reader.source.buffer =
    (file.drop position).take (r.reader.source.filePosition - position)
  some_ : ∀ n ∈ r.counts, 0 < n
  rest : r.reader.source.filePosition + r.counts.sum = file.length
  index_eq : r.reader.index.toNat = position
  keystream_eq : r.reader.cipher.keystream = keystream
  offset_eq : r.reader.cipher.offset = position
  buffer_length : r.reader.buffer.length = frameSize
  buffer_id : r.reader.buffer.take idSize = Bytes.toBE idSize id.toNat

theorem at_start {index : UInt64} (cipher : StreamCipher) (within : index.toNat ≤ file.length)
    (fills : Fills (file.length - index.toNat)) :
    At file id cipher.keystream index.toNat ⟨Reader.start file index id cipher, fills.counts⟩ := by
  have started : (Reader.start file index id cipher).At file id cipher.keystream index.toNat :=
    Reader.at_start cipher within
  refine ⟨rfl, started.source_at.ahead, started.source_at.buffered, fills.some_, ?_,
    rfl, rfl, rfl, started.buffer_length, started.buffer_id⟩
  rw [fills.total]
  exact Nat.add_sub_cancel' within

/-- What is read ahead after a fill: something, unless the file is at its end. -/
theorem At.fillBufFrom (at_ : r.At file id keystream position) :
    let filled := r.reader.source.fillBufFrom r.counts
    At file id keystream position ⟨{ r.reader with source := filled.1 }, filled.2⟩ ∧
      left ⟨{ r.reader with source := filled.1 }, filled.2⟩ position = r.left position ∧
      (filled.1.filePosition = position → filled.2 = []) := by
  obtain ⟨rfl, ahead, buffered, some_, rest, index_eq, keystream_eq, offset_eq, buffer_length,
    buffer_id⟩ := at_
  unfold BufReader.fillBufFrom
  split
  next empty =>
    have count := congrArg List.length (buffered.symm.trans empty)
    simp only [List.length_take, List.length_drop, List.length_nil] at count
    have here : r.reader.source.filePosition = position := by omega
    split
    next none_ =>
      refine ⟨⟨rfl, ahead, buffered, nofun, none_ ▸ rest, index_eq, keystream_eq, offset_eq,
        buffer_length, buffer_id⟩, ?_, fun _ => rfl⟩
      rw [left, left, none_]
    next n counts more =>
      rw [more] at some_ rest
      rw [List.sum_cons] at rest
      have got : ((r.reader.source.file.drop r.reader.source.filePosition).take n).length = n := by
        rw [List.length_take, List.length_drop]
        omega
      simp only [got]
      refine ⟨⟨rfl, by simp only; omega, ?_, fun m mem => some_ m (List.mem_cons_of_mem _ mem),
        by simp only; omega, index_eq, keystream_eq, offset_eq, buffer_length, buffer_id⟩, ?_, ?_⟩
      · simp only [here, Nat.add_sub_cancel_left]
      · simp only [left, here, more, Nat.add_sub_cancel_left, Nat.sub_self, tiles_zero,
          List.flatMap_cons, List.nil_append]
      · intro none_
        have := some_ n List.mem_cons_self
        omega
  next nonempty =>
    refine ⟨⟨rfl, ahead, buffered, some_, rest, index_eq, keystream_eq, offset_eq, buffer_length,
      buffer_id⟩, rfl, fun none_ => absurd ?_ nonempty⟩
    rw [buffered, none_, Nat.sub_self, List.take_zero]

/-- One iteration queues what is left of the last fill, up to a chunk, or nothing is left. -/
theorem At.next (at_ : r.At file id keystream position) (fits : file.length < 2 ^ 64) :
    r.left position = [] ∧ r.next id = none ∨
      ∃ n rest job r', r.left position = n :: rest ∧ r.next id = some (job, r') ∧
        job.id = id ∧ job.index.toNat = position ∧
        CarriesRead file id keystream position n job.data ∧
        r'.At file id keystream (position + n) ∧ r'.left (position + n) = rest := by
  obtain ⟨filled, same, ended⟩ := at_.fillBufFrom
  unfold PacedReader.next
  rw [← same]
  generalize r.reader.source.fillBufFrom r.counts = source at *
  obtain ⟨source, counts⟩ := source
  obtain ⟨file_eq, ahead, buffered, some_, rest, index_eq, keystream_eq, offset_eq, buffer_length,
    buffer_id⟩ := filled
  simp only at file_eq ended ahead buffered some_ rest index_eq keystream_eq offset_eq
  subst file_eq
  have pos : 0 < transferBufferSize := by decide
  have within : source.filePosition ≤ source.file.length := by omega
  rcases Nat.eq_or_lt_of_le ahead with here | before
  · -- nothing was got: the end of the file
    left
    have none_ : source.buffer = [] := by rw [buffered, here, Nat.sub_self, List.take_zero]
    refine ⟨?_, ?_⟩
    · rw [left, ended here.symm, here, Nat.sub_self, tiles_zero]
      rfl
    · dsimp only
      rw [none_]
      rfl
  · right
    have count : (source.buffer.take transferBufferSize).length =
        min transferBufferSize (source.filePosition - position) := by
      rw [buffered, List.take_take, List.length_take, List.length_drop]
      omega
    have read : source.buffer.take transferBufferSize = (source.file.drop position).take
        (min transferBufferSize (source.filePosition - position)) := by
      rw [buffered, List.take_take]
    generalize tile : min transferBufferSize (source.filePosition - position) = n at count read
    have encrypted : (r.reader.cipher.applyKeystream (source.buffer.take transferBufferSize)).1 =
        keystream.xorAt position ((source.file.drop position).take n) := by
      rw [StreamCipher.applyKeystream, keystream_eq, offset_eq, read]
    have encrypted_length :
        (keystream.xorAt position ((source.file.drop position).take n)).length = n := by
      rw [Keystream.length_xorAt, ← read, count]
    obtain ⟨length, idBytes, indexBytes, dataBytes⟩ := Reader.frame_spec r.reader.index
      (keystream.xorAt position ((source.file.drop position).take n)) buffer_length (by omega)
    rw [index_eq] at indexBytes
    rw [encrypted_length] at dataBytes
    rw [buffer_id] at idBytes
    simp only [Reader.queueRead, count, encrypted, if_neg (show n ≠ 0 by omega)]
    refine ⟨n, tiles transferBufferSize (source.filePosition - position - transferBufferSize) ++
      counts.flatMap (tiles transferBufferSize), _, _, ?_, rfl, rfl, index_eq,
      ⟨length, idBytes, indexBytes, dataBytes⟩,
      ⟨rfl, by simp only; omega, ?_, some_, rest, ?_, keystream_eq, ?_, length, idBytes⟩, ?_⟩
    · rw [left, tiles_step pos (by simp only; omega), List.cons_append]
      simp only [tile]
    · simp only
      rw [buffered, drop_stretch, tile, Nat.sub_sub]
    · simp only
      rw [UInt64.toNat_add, index_eq, UInt64.toNat_ofNat', Nat.mod_eq_of_lt,
        Nat.mod_eq_of_lt] <;> omega
    · simp only [StreamCipher.applyKeystream_offset, offset_eq, count]
    · have behind : source.filePosition - (position + n) =
          source.filePosition - position - transferBufferSize := by
        omega
      simp only [left, behind]

/-! ## A whole run -/

/-- There is one job for each read, and it carries what was read. -/
theorem At.jobs {fuel : Nat} (at_ : r.At file id keystream position) (fits : file.length < 2 ^ 64)
    (enough : (r.left position).length < fuel) :
    List.Forall₂ (fun job piece => job.id = id ∧ job.index.toNat = piece.1 ∧
      CarriesRead file id keystream piece.1 piece.2 job.data)
        (PacedReader.jobs id fuel r) (pieces position (r.left position)) := by
  induction fuel generalizing position r with
  | zero => omega
  | succ fuel ih =>
      unfold PacedReader.jobs
      rcases at_.next fits with ⟨none_, ended⟩ |
        ⟨n, rest, job, r', some_, next, job_id, index, carries, at', left'⟩
      · rw [none_, ended]
        exact .nil
      · rw [some_, next]
        rw [some_, List.length_cons] at enough
        refine .cons ⟨job_id, index, carries⟩ ?_
        rw [← left']
        exact ih at' (by rw [left']; omega)

end PacedReader

section

variable {file : Bytes} {index : UInt64} (id : UInt32) (cipher : StreamCipher)

/-- At the start all fills are left. -/
theorem left_start (fills : Fills (file.length - index.toNat)) :
    PacedReader.left ⟨Reader.start file index id cipher, fills.counts⟩ index.toNat =
      fills.counts.flatMap (tiles transferBufferSize) := by
  rw [PacedReader.left]
  change tiles _ (index.toNat - index.toNat) ++ _ = _
  rw [Nat.sub_self, tiles_zero, List.nil_append]

theorem length_left_start (fills : Fills (file.length - index.toNat)) :
    (PacedReader.left ⟨Reader.start file index id cipher, fills.counts⟩ index.toNat).length <
      file.length + 1 := by
  have count := @length_flatMap_tiles_le transferBufferSize fills.counts
  rw [fills.total] at count
  rw [left_start]
  omega

/-- The jobs carry what was read, one behind the other. -/
theorem forall₂_pacedJobs (fits : file.length < 2 ^ 64) (within : index.toNat ≤ file.length)
    (fills : Fills (file.length - index.toNat)) :
    List.Forall₂ (fun job piece => job.id = id ∧ job.index.toNat = piece.1 ∧
        CarriesRead file id cipher.keystream piece.1 piece.2 job.data)
      (pacedJobs file index id cipher fills)
      (pieces index.toNat (fills.counts.flatMap (tiles transferBufferSize))) := by
  have at_ : PacedReader.At file id cipher.keystream index.toNat
      ⟨Reader.start file index id cipher, fills.counts⟩ :=
    PacedReader.at_start cipher within fills
  rw [← left_start id cipher fills]
  exact at_.jobs fits (length_left_start id cipher fills)

theorem map_index_pacedJobs (fits : file.length < 2 ^ 64) (within : index.toNat ≤ file.length)
    (fills : Fills (file.length - index.toNat)) :
    (pacedJobs file index id cipher fills).map (fun job => job.index.toNat) =
      (pieces index.toNat (fills.counts.flatMap (tiles transferBufferSize))).map Prod.fst :=
  List.forall₂_eq_eq_eq ▸ (List.forall₂_map_left_iff.mpr (List.forall₂_map_right_iff.mpr
    ((forall₂_pacedJobs id cipher fits within fills).imp fun _ _ holds => holds.2.1)))

/-! ## Tiling the file -/

/-- The jobs are the chunks of the file from `first` on: they stand at `first` and every
chunk's length further on, each carries the chunk at its index, and only the last may be
shorter. -/
structure TilesFile (file : Bytes) (first : Nat) (id : UInt32) (keystream : Keystream)
    (jobs : List Sender.Job) : Prop where
  indexes : jobs.map (fun job => job.index.toNat) = grid transferBufferSize first file.length
  carried : ∀ job ∈ jobs, job.id = id ∧ CarriesChunk file id keystream job.index.toNat job.data
  full : ∀ job ∈ jobs.dropLast, (chunkAt file job.index.toNat).length = transferBufferSize

/-- **The reader tiles the file** exactly if the file answers with a multiple of a chunk
every time but the last. -/
theorem tiles_iff (fits : file.length < 2 ^ 64) (within : index.toNat ≤ file.length)
    (fills : Fills (file.length - index.toNat)) :
    TilesFile file index.toNat id cipher.keystream (pacedJobs file index id cipher fills) ↔
      ∀ n ∈ fills.counts.dropLast, transferBufferSize ∣ n := by
  have pos : 0 < transferBufferSize := by decide
  have stop : index.toNat + fills.counts.sum = file.length := by
    rw [fills.total]
    exact Nat.add_sub_cancel' within
  have grid_iff := @starts_eq_grid_iff _ index.toNat _ pos fills.some_
  rw [stop, ← map_index_pacedJobs id cipher fits within] at grid_iff
  constructor
  · exact fun tiles => grid_iff.mp tiles.indexes
  · intro aligned
    refine ⟨grid_iff.mpr aligned, ?_, ?_⟩
    · intro job mem
      obtain ⟨piece, listed, job_id, same, carries⟩ :=
        exists_of_mem_forall₂ (forall₂_pacedJobs id cipher fits within fills) mem
      rw [flatMap_tiles pos aligned] at listed
      have len := length_of_mem_tiles pos listed
      rw [stop, ← length_chunkAt] at len
      refine ⟨job_id, carriesChunk_of_carriesRead ?_⟩
      rwa [same, ← len]
    · intro job mem
      have below : job.index.toNat ∈
          (grid transferBufferSize index.toNat file.length).dropLast := by
        rw [← grid_iff.mpr aligned, List.dropLast_eq_take, List.length_map, ← List.map_take,
          ← List.dropLast_eq_take]
        exact List.mem_map_of_mem mem
      have room := lt_of_mem_dropLast_grid pos below
      rw [length_chunkAt]
      omega

end

/-- Four chunks and three bytes, of which a reader that starts behind the first chunk gets three
fills. -/
def threeFills : Fills ((List.replicate 4099 (0 : UInt8)).length - (1024 : UInt64).toNat) where
  counts := [1024, 2048, 3]
  some_ := by decide
  fits := by decide
  total := by rw [List.length_replicate]; rfl

theorem tiles_iff_three_fills : TilesFile (List.replicate 4099 0) 1024 7 (fun _ => 0)
    (pacedJobs (List.replicate 4099 0) 1024 7 ⟨fun _ => 0, 0, none⟩ threeFills) := by
  have size : (List.replicate 4099 (0 : UInt8)).length = 4099 := List.length_replicate
  apply (tiles_iff 7 ⟨fun _ => 0, 0, none⟩ (by rw [size]; decide) (by rw [size]; decide)
    threeFills).mpr
  have aligned : ∀ n ∈ [1024, 2048, 3].dropLast, transferBufferSize ∣ n := by decide
  exact aligned

/-- A chunk and a byte, of which the first fill is the byte. -/
def byteFirst : Fills ((List.replicate 1025 (0 : UInt8)).length - (0 : UInt64).toNat) where
  counts := [1, 1024]
  some_ := by decide
  fits := by decide
  total := by rw [List.length_replicate]; rfl

/-- The second job stands at index 1. -/
theorem short_fill_shifts :
    (pacedJobs (List.replicate 1025 0) 0 7 ⟨fun _ => 0, 0, none⟩ byteFirst).map
        (fun job => job.index.toNat) = [0, 1] ∧
      ¬ TilesFile (List.replicate 1025 0) 0 7 (fun _ => 0)
        (pacedJobs (List.replicate 1025 0) 0 7 ⟨fun _ => 0, 0, none⟩ byteFirst) := by
  have indexes := map_index_pacedJobs 7 ⟨fun _ => 0, 0, none⟩
    (by rw [List.length_replicate]; decide) (Nat.zero_le _) byteFirst
  refine ⟨indexes, fun tiles => ?_⟩
  have grid_eq : grid transferBufferSize 0 (List.replicate 1025 (0 : UInt8)).length = [0, 1] :=
    tiles.indexes.symm.trans indexes
  rw [List.length_replicate] at grid_eq
  exact absurd grid_eq (by decide)

/-! ## A file that answers with all it is asked for -/

/-- Every fill is as long as the buffer, or all that is left. -/
def fullFills (remaining : Nat) : Fills remaining where
  counts := tiles readBufferSize remaining
  some_ _ mem := (mem_tiles (by decide) mem).1
  fits _ mem := (mem_tiles (by decide) mem).2
  total := sum_tiles remaining

theorem fillBufFrom_full {source : BufReader} (within : source.filePosition ≤ source.file.length) :
    source.fillBufFrom (tiles readBufferSize (source.file.length - source.filePosition)) =
      (source.fillBuf, tiles readBufferSize
        (source.fillBuf.file.length - source.fillBuf.filePosition)) := by
  have pos : 0 < readBufferSize := by decide
  obtain ⟨file, position, buffer⟩ := source
  simp only at within
  unfold BufReader.fillBufFrom BufReader.fillBuf
  by_cases empty : buffer = []
  · simp only [if_pos empty]
    rcases Nat.eq_or_lt_of_le within with ended | more
    · rw [ended, Nat.sub_self, tiles_zero, List.drop_length]
      simp [empty]
    · have got : ((file.drop position).take readBufferSize).length =
          min readBufferSize (file.length - position) := by
        rw [List.length_take, List.length_drop]
      have same : (file.drop position).take (min readBufferSize (file.length - position)) =
          (file.drop position).take readBufferSize := by
        rw [← List.length_drop, ← List.take_eq_take_min]
      have behind : file.length - position - readBufferSize =
          file.length - (position + min readBufferSize (file.length - position)) := by
        omega
      rw [tiles_step pos (by omega)]
      simp only [same, got, behind]
  · simp only [if_neg empty]

/-- Then an iteration is that of `Reader.next`. -/
theorem PacedReader.next_full {r : Reader} {id : UInt32}
    (within : r.source.filePosition ≤ r.source.file.length) :
    PacedReader.next ⟨r, tiles readBufferSize (r.source.file.length - r.source.filePosition)⟩ id =
      (r.next id).map fun queued => (queued.1, ⟨queued.2, tiles readBufferSize
        (queued.2.source.file.length - queued.2.source.filePosition)⟩) := by
  rw [PacedReader.next, Reader.next_eq_queueRead]
  simp only [fillBufFrom_full within]
  unfold BufReader.read Reader.queueRead
  simp only
  split
  next => rfl
  next => rfl

theorem BufReader.within_fillBuf {source : BufReader}
    (within : source.filePosition ≤ source.file.length) :
    source.fillBuf.filePosition ≤ source.fillBuf.file.length := by
  unfold BufReader.fillBuf
  split
  next =>
    simp only [List.length_take, List.length_drop]
    omega
  next => exact within

theorem within_of_next {r : Reader} {id : UInt32} {queued : Sender.Job × Reader}
    (within : r.source.filePosition ≤ r.source.file.length) (next : r.next id = some queued) :
    queued.2.source.filePosition ≤ queued.2.source.file.length := by
  have filled := BufReader.within_fillBuf within
  rw [Reader.next_eq_queueRead, Reader.queueRead] at next
  split at next
  next => cases next
  next =>
    cases next
    exact filled

/-- **A file that answers with all it is asked for** is read as `readerJobs` says. -/
theorem pacedJobs_full (file : Bytes) (index : UInt64) (id : UInt32) (cipher : StreamCipher)
    (within : index.toNat ≤ file.length) :
    pacedJobs file index id cipher (fullFills _) = readerJobs file index id cipher := by
  have general : ∀ (fuel : Nat) (r : Reader), r.source.filePosition ≤ r.source.file.length →
      PacedReader.jobs id fuel
          ⟨r, tiles readBufferSize (r.source.file.length - r.source.filePosition)⟩ =
        Reader.jobs id fuel r := by
    intro fuel
    induction fuel with
    | zero => exact fun _ _ => rfl
    | succ fuel ih =>
        intro r within
        rw [PacedReader.jobs, Reader.jobs, PacedReader.next_full within]
        cases next : r.next id with
        | none => rfl
        | some queued =>
            simp only [Option.map_some]
            rw [ih _ (within_of_next within next)]
  exact general _ _ within

end Cccp
