import Cccp.Cipher
import Cccp.Sender.Jobs

/-!
# Keystreams of the data path

Every attempt to transfer a file makes a new cipher from the key and iv the manifest has for
it, and moves the cipher to the position it reads from.  A source may change at any time: an
attempt may open other contents than the one before it, and a file that is open may change.

`sealed_reached`: the data of a job is what was read, under the keystream of its file at the
position it was read from.  `keystream_once`: as long as no reader gets, at a position that
was read before, another byte than was read there, no position of the keystream is put onto
two bytes.
-/

namespace Cccp

namespace Keystreams

open Cccp.Flow (SourceFile ReaderTask ReaderPc)

/-! ## States -/

structure Config where
  flow : Flow.Config
  crates : CipherCrates
  /-- the `crypto` of the files in the manifest -/
  crypto : UInt32 → Crypto

/-- A byte is the one at `position` of bytes that begin at `first`. -/
def Spans (first : Nat) (bytes : Bytes) (position : Nat) (byte : UInt8) : Prop :=
  first ≤ position ∧ bytes[position - first]? = some byte

/-- What a reader of `id` got from its file. -/
structure Fetch where
  id : UInt32
  position : Nat
  bytes : Bytes

/-- What a reader put its keystream onto, from an offset of it on, and the job it made. -/
structure Encryption where
  job : Sender.Job
  offset : Nat
  plain : Bytes

/-- The state of the sender's tasks; the other fields only record what happened. -/
structure State where
  flow : Flow.State
  fetched : List Fetch
  encrypted : List Encryption
  transmitted : List Sender.Job

/-- The encryptions of the jobs that were transmitted. -/
def State.sent (s : State) : List Encryption :=
  s.encrypted.filter fun encryption => decide (encryption.job ∈ s.transmitted)

inductive Action where
  | start (id : UInt32) (file : SourceFile) (index : UInt64)
  | restart (id : UInt32) (file : SourceFile) (index : UInt64)
  | modify (reader : Nat) (file : SourceFile)
  | sender (action : Flow.Action)

/-! ## Steps -/

/-- The reader that an action makes read. -/
def reading? (flow : Flow.State) : Flow.Action → Option (UInt32 × Reader)
  | .readChunk index =>
      flow.readers[index]?.bind fun task =>
        match task.pc with
        | .reading r => some (task.id, r)
        | _ => none
  | _ => none

/-- What the reader gets from its file: something only if nothing is left of what it got
before. -/
def fetches (id : UInt32) (r : Reader) : List Fetch :=
  if r.source.buffer = [] then
    [⟨id, r.source.filePosition,
      (r.source.file.drop r.source.filePosition).take readBufferSize⟩]
  else []

/-- What the reader encrypts: nothing, if the keystream ends before what it read does. -/
def encryptions (id : UInt32) (r : Reader) : List Encryption :=
  match r.next id with
  | none => []
  | some (job, r') =>
      if r'.cipher.past r'.cipher.offset then []
      else [⟨job, r.cipher.offset, (r.source.read transferBufferSize).1⟩]

/-- What a reader gets in a step of the sender's tasks. -/
def fetchedIn (flow : Flow.State) (action : Flow.Action) : List Fetch :=
  (reading? flow action).toList.flatMap fun reading => fetches reading.1 reading.2

def encryptedIn (flow : Flow.State) (action : Flow.Action) : List Encryption :=
  (reading? flow action).toList.flatMap fun reading => encryptions reading.1 reading.2

/-- What is transmitted. -/
def transmissions (flow : Flow.State) : Flow.Action → List Sender.Job
  | .send task => (flow.tasks[task]?.bind fun task => task.pc.job?).toList
  | _ => []

/-- The reader with another file, or with the one it has changed. -/
def withFile (file : SourceFile) : ReaderPc → ReaderPc
  | .opening _ index cipher => .opening file index cipher
  | .acquiring r => .acquiring { r with source := { r.source with file := file.contents } }
  | .reading r => .reading { r with source := { r.source with file := file.contents } }
  | .queued index r =>
      .queued index { r with source := { r.source with file := file.contents } }
  | .stopped => .stopped

/-- A start of a reader, with a new cipher. -/
def spawn (cfg : Config) (s : State) (id : UInt32) (action : StreamCipher → Flow.Action) :
    Option State :=
  match (cfg.crypto id).makeCipher cfg.crates with
  | .made cipher =>
      (Flow.step cfg.flow s.flow (action cipher)).map fun flow => { s with flow := flow }
  | .unknownEnumValue => none
  | .panicked => none

def step (cfg : Config) (s : State) : Action → Option State
  | .start id file index => spawn cfg s id (.start id file index)
  | .restart id file index => spawn cfg s id (.restart id file index)
  | .modify index file =>
      s.flow.readers[index]?.map fun task =>
        { s with flow := s.flow.setReader index task (withFile file task.pc) }
  | .sender action =>
      if action.starts then none
      else (Flow.step cfg.flow s.flow action).map fun flow =>
        { flow := flow
          fetched := s.fetched ++ fetchedIn s.flow action
          encrypted := s.encrypted ++ encryptedIn s.flow action
          transmitted := s.transmitted ++ transmissions s.flow action }

def machine (cfg : Config) : Machine State Action where
  init s := s = ⟨Flow.initial cfg.flow, [], [], []⟩
  step := step cfg

/-! ## The properties -/

/-- A reader of `id` got this byte at this position. -/
def Fetched (fetched : List Fetch) (id : UInt32) (position : Nat) (byte : UInt8) : Prop :=
  ∃ fetch ∈ fetched, fetch.id = id ∧ Spans fetch.position fetch.bytes position byte

/-- No offset of the keystream of `id` is put onto two bytes. -/
def OneTime (encrypted : List Encryption) (id : UInt32) : Prop :=
  ∀ first ∈ encrypted, ∀ second ∈ encrypted, first.job.id = id → second.job.id = id →
    ∀ position byte byte', Spans first.offset first.plain position byte →
      Spans second.offset second.plain position byte' → byte = byte'

/-- Where a reader gets bytes from its file, the file has the bytes that readers of the same
id got from it before. -/
def Unchanged (s : State) : Action → Prop
  | .sender action => ∀ id r, reading? s.flow action = some (id, r) → r.source.buffer = [] →
      ∀ position byte byte', r.source.filePosition ≤ position →
        position < r.source.filePosition + readBufferSize →
          Fetched s.fetched id position byte → r.source.file[position]? = some byte' →
            byte = byte'
  | _ => True

/-- The data of a job is the plaintext under the keystream of its file at the offset. -/
def Sealed (cfg : Config) (encryption : Encryption) : Prop :=
  ∃ keystream ends,
    (cfg.crypto encryption.job.id).makeCipher cfg.crates = .made ⟨keystream, 0, ends⟩ ∧
      (encryption.job.data.drop (idSize + indexSize)).take encryption.plain.length =
        keystream.xorAt encryption.offset encryption.plain

/-! ## Bytes at positions -/

variable {first position count : Nat} {bytes : Bytes} {byte byte' : UInt8}

theorem Spans.unique (left : Spans first bytes position byte)
    (right : Spans first bytes position byte') : byte = byte' :=
  Option.some.inj (left.2.symm.trans right.2)

theorem Spans.of_take (spans : Spans first (bytes.take count) position byte) :
    Spans first bytes position byte := by
  refine ⟨spans.1, ?_⟩
  have here := spans.2
  rw [List.getElem?_take] at here
  split at here
  next => exact here
  next => cases here

theorem Spans.of_drop (spans : Spans (first + count) (bytes.drop count) position byte) :
    Spans first bytes position byte := by
  obtain ⟨behind, here⟩ := spans
  rw [List.getElem?_drop] at here
  refine ⟨Nat.le_trans (Nat.le_add_right _ _) behind, ?_⟩
  rwa [show position - first = count + (position - (first + count)) by omega]

/-- The bytes of a file from a position on are at their own positions. -/
theorem spans_fill (spans : Spans first ((bytes.drop first).take count) position byte) :
    first ≤ position ∧ position < first + count ∧ bytes[position]? = some byte := by
  have within := (List.getElem?_eq_some_iff.mp spans.2).1
  rw [List.length_take] at within
  have whole := spans.of_take.2
  rw [List.getElem?_drop, Nat.add_sub_cancel' spans.1] at whole
  exact ⟨spans.1, by have := spans.1; omega, whole⟩

theorem Fetched.append_left {fetched : List Fetch} {id : UInt32}
    (before : Fetched fetched id position byte) (new : List Fetch) :
    Fetched (fetched ++ new) id position byte := by
  obtain ⟨fetch, mem, own, spans⟩ := before
  exact ⟨fetch, List.mem_append_left _ mem, own, spans⟩

theorem fetched_append {fetched new : List Fetch} {id : UInt32}
    (got : Fetched (fetched ++ new) id position byte) :
    Fetched fetched id position byte ∨ Fetched new id position byte := by
  obtain ⟨fetch, mem, own⟩ := got
  exact (List.mem_append.mp mem).imp (fun mem => ⟨fetch, mem, own⟩) fun mem => ⟨fetch, mem, own⟩

/-! ## One iteration of a reader -/

/-- A reader that uses the keystream of its id, and whose buffered bytes were got at the
positions its cipher will put the keystream onto them. -/
structure Aligned (cfg : Config) (fetched : List Fetch) (id : UInt32) (r : Reader) : Prop where
  made : (cfg.crypto id).makeCipher cfg.crates = .made ⟨r.cipher.keystream, 0, r.cipher.ends⟩
  position : r.cipher.offset + r.source.buffer.length = r.source.filePosition
  buffered : ∀ position byte, Spans r.cipher.offset r.source.buffer position byte →
    Fetched fetched id position byte
  size : r.buffer.length = frameSize

variable {cfg : Config} {fetched : List Fetch} {id : UInt32} {r r' : Reader}

theorem Aligned.append (aligned : Aligned cfg fetched id r) (new : List Fetch) :
    Aligned cfg (fetched ++ new) id r :=
  ⟨aligned.made, aligned.position,
    fun position byte spans => (aligned.buffered position byte spans).append_left new, aligned.size⟩

/-- What the reader gets is what it holds then. -/
theorem Aligned.fillBuf (aligned : Aligned cfg fetched id r) :
    Aligned cfg (fetched ++ fetches id r) id { r with source := r.source.fillBuf } := by
  by_cases empty : r.source.buffer = []
  · have here : r.cipher.offset = r.source.filePosition := by
      rw [← aligned.position, empty]
      rfl
    rw [BufReader.fillBuf, if_pos empty, fetches, if_pos empty]
    refine ⟨aligned.made, ?_, fun position byte spans => ?_, aligned.size⟩
    · rw [here]
    · rw [here] at spans
      exact ⟨_, List.mem_append_right _ (List.mem_singleton_self _), rfl, spans⟩
  · rw [BufReader.fillBuf, if_neg empty]
    exact aligned.append _

/-- What the reader reads of what it holds. -/
def plainOf (r : Reader) : Bytes := r.source.fillBuf.buffer.take transferBufferSize

theorem next_eq {job : Sender.Job} (next : r.next id = some (job, r')) :
    job.data =
        Reader.frame r.buffer r.index (r.cipher.keystream.xorAt r.cipher.offset (plainOf r)) ∧
      r'.buffer = job.data ∧
      r'.cipher =
        ⟨r.cipher.keystream, r.cipher.offset + (plainOf r).length, r.cipher.ends⟩ ∧
      r'.source =
        { r.source.fillBuf with buffer := r.source.fillBuf.buffer.drop transferBufferSize } := by
  unfold Reader.next at next
  dsimp only at next
  split at next
  next => cases next
  next =>
    cases next
    exact ⟨rfl, rfl, rfl, rfl⟩

theorem length_plainOf_le (r : Reader) : (plainOf r).length ≤ transferBufferSize :=
  List.length_take_le _ _

theorem Aligned.frame_spec (aligned : Aligned cfg fetched id r) {job : Sender.Job}
    (next : r.next id = some (job, r')) :
    job.data.length = frameSize ∧
      (job.data.drop (idSize + indexSize)).take (plainOf r).length =
        r.cipher.keystream.xorAt r.cipher.offset (plainOf r) := by
  have length := r.cipher.keystream.length_xorAt r.cipher.offset (plainOf r)
  obtain ⟨whole, -, -, data⟩ := Reader.frame_spec r.index
    (r.cipher.keystream.xorAt r.cipher.offset (plainOf r)) aligned.size
    (length ▸ length_plainOf_le r)
  rw [length] at data
  rw [(next_eq next).1]
  exact ⟨whole, data⟩

/-- The reader goes on behind what it has encrypted. -/
theorem Aligned.next (aligned : Aligned cfg fetched id r) {job : Sender.Job}
    (next : r.next id = some (job, r')) : Aligned cfg (fetched ++ fetches id r) id r' := by
  obtain ⟨made, position, buffered, size⟩ := aligned.fillBuf
  obtain ⟨-, buffer, cipher, source⟩ := next_eq next
  have parts := congrArg List.length
    (List.take_append_drop transferBufferSize r.source.fillBuf.buffer)
  rw [List.length_append] at parts
  refine ⟨?_, ?_, fun position byte spans => ?_, ?_⟩
  · rw [cipher]
    exact made
  · rw [cipher, source, plainOf]
    simp only at position ⊢
    omega
  · rw [cipher, source] at spans
    apply buffered
    by_cases short : r.source.fillBuf.buffer.length ≤ transferBufferSize
    · -- nothing is left
      have none_ := spans.2
      rw [List.drop_of_length_le short] at none_
      cases none_
    · rw [plainOf, List.length_take, Nat.min_eq_left (Nat.le_of_not_le short)] at spans
      exact spans.of_drop
  · rw [buffer]
    exact (aligned.frame_spec next).1

/-- What the reader encrypts it got at the offset it puts the keystream onto it. -/
theorem Aligned.encryptions (aligned : Aligned cfg fetched id r) :
    ∀ encryption ∈ encryptions id r, Sealed cfg encryption ∧
      ∀ position byte, Spans encryption.offset encryption.plain position byte →
        Fetched (fetched ++ fetches id r) encryption.job.id position byte := by
  intro encryption mem
  unfold Keystreams.encryptions at mem
  split at mem
  next => cases mem
  next job r' next =>
    split at mem
    next => cases mem
    next =>
      obtain rfl := List.mem_singleton.mp mem
      have own : job.id = id := Reader.next_id next
      refine ⟨⟨r.cipher.keystream, r.cipher.ends, ?_, (aligned.frame_spec next).2⟩,
        fun position byte spans => ?_⟩
      · rw [own]
        exact aligned.made
      · rw [own]
        exact aligned.fillBuf.buffered position byte spans.of_take

/-! ## The steps -/

variable {s s' : State} {action : Action}

/-- What a reader task has, or will have, is aligned. -/
def TaskAligned (cfg : Config) (fetched : List Fetch) (task : ReaderTask) : Prop :=
  match task.pc with
  | .opening _ _ cipher =>
      (cfg.crypto task.id).makeCipher cfg.crates = .made ⟨cipher.keystream, 0, cipher.ends⟩
  | .stopped => True
  | .acquiring r | .reading r | .queued _ r => Aligned cfg fetched task.id r

/-- Every reader is aligned, and what is encrypted was got before and is sealed. -/
structure Tracked (cfg : Config) (s : State) : Prop where
  readers : ∀ task ∈ s.flow.readers, TaskAligned cfg s.fetched task
  encrypted : ∀ encryption ∈ s.encrypted, Sealed cfg encryption ∧
    ∀ position byte, Spans encryption.offset encryption.plain position byte →
      Fetched s.fetched encryption.job.id position byte

theorem TaskAligned.of_pc {task : ReaderTask} {pc : ReaderPc}
    (aligned : TaskAligned cfg fetched task) (same : task.pc = pc) :
    TaskAligned cfg fetched ⟨task.id, pc⟩ := by
  rw [← same]
  exact aligned

theorem TaskAligned.append {task : ReaderTask} (aligned : TaskAligned cfg fetched task)
    (new : List Fetch) : TaskAligned cfg (fetched ++ new) task := by
  unfold TaskAligned at aligned ⊢
  split at aligned
  next => exact aligned
  next => trivial
  next => exact Aligned.append aligned new
  next => exact Aligned.append aligned new
  next => exact Aligned.append aligned new

theorem TaskAligned.withFile {task : ReaderTask} (aligned : TaskAligned cfg fetched task)
    (file : SourceFile) : TaskAligned cfg fetched ⟨task.id, withFile file task.pc⟩ := by
  obtain ⟨id, pc⟩ := task
  cases pc with
  | opening => exact aligned
  | stopped => trivial
  | acquiring r | reading r | queued index r =>
      obtain ⟨made, position, buffered, size⟩ := aligned
      exact ⟨made, position, buffered, size⟩

theorem aligned_set {tasks : List ReaderTask} {j : Nat} {new : ReaderTask}
    (readers : ∀ task ∈ tasks, TaskAligned cfg fetched task) (own : TaskAligned cfg fetched new) :
    ∀ task ∈ tasks.set j new, TaskAligned cfg fetched task := by
  intro task mem
  rcases List.mem_or_eq_of_mem_set mem with mem | rfl
  · exact readers task mem
  · exact own

theorem reading?_of_reading {flow : Flow.State} {j : Nat} {task : ReaderTask}
    (here : flow.readers[j]? = some task) (pc : task.pc = .reading r) :
    reading? flow (.readChunk j) = some (task.id, r) := by
  rw [reading?, here, Option.bind_some, pc]

theorem fetchedIn_of_reading? {flow : Flow.State} {action : Flow.Action}
    (here : reading? flow action = some (id, r)) : fetchedIn flow action = fetches id r := by
  rw [fetchedIn, here]
  exact List.append_nil _

/-- A step of the sender's tasks keeps the readers aligned. -/
theorem tasks_move (readers : ∀ task ∈ s.flow.readers, TaskAligned cfg s.fetched task)
    {action : Flow.Action} (going : action.starts = false) {flow : Flow.State}
    (move : Flow.Move cfg.flow s.flow action flow) :
    ∀ task ∈ flow.readers, TaskAligned cfg (s.fetched ++ fetchedIn s.flow action) task := by
  have kept : ∀ task ∈ s.flow.readers,
      TaskAligned cfg (s.fetched ++ fetchedIn s.flow action) task :=
    fun task mem => (readers task mem).append _
  cases move with
  | started | restarted => cases going
  | @opened j task file index cipher here pc _ =>
      have made := (kept task (List.mem_of_getElem? here)).of_pc pc
      refine aligned_set kept ⟨made, Nat.add_zero _, fun position byte spans => ?_, ?_⟩
      · cases spans.2
      · rw [Reader.start, Bytes.length_splice]
        · exact List.length_replicate
        · rw [Bytes.length_toBE, List.length_replicate]
          decide
  | unseekable | unopened | ended => exact aligned_set kept trivial
  | @acquired j task r here pc =>
      have aligned := (kept task (List.mem_of_getElem? here)).of_pc pc
      exact aligned_set kept aligned
  | @produced j task r r' job here pc next _ =>
      have aligned := (readers task (List.mem_of_getElem? here)).of_pc pc
      rw [fetchedIn_of_reading? (reading?_of_reading here pc)] at kept ⊢
      exact aligned_set kept (Aligned.next aligned next)
  | @forgot j task index r here pc =>
      have aligned := (kept task (List.mem_of_getElem? here)).of_pc pc
      exact aligned_set kept aligned
  | permitted | sendAcquired | received | sent | sendFailed | cached | confirmed | lost
  | requeued | late | gone => exact kept

theorem reading_of_reading? {flow : Flow.State} {action : Flow.Action}
    (here : reading? flow action = some (id, r)) :
    ∃ task ∈ flow.readers, task.id = id ∧ task.pc = .reading r := by
  unfold reading? at here
  split at here
  next j =>
    obtain ⟨task, found, here⟩ := Option.bind_eq_some_iff.mp here
    split at here
    next pc =>
      cases here
      exact ⟨task, List.mem_of_getElem? found, rfl, pc⟩
    next => cases here
  next => cases here

/-- A step of the sender's tasks encrypts what was got before, or in that step. -/
theorem encryptedIn_spec (tracked : Tracked cfg s) (action : Flow.Action) :
    ∀ encryption ∈ encryptedIn s.flow action, Sealed cfg encryption ∧
      ∀ position byte, Spans encryption.offset encryption.plain position byte →
        Fetched (s.fetched ++ fetchedIn s.flow action) encryption.job.id position byte := by
  intro encryption mem
  obtain ⟨⟨id, r⟩, here, mem⟩ := List.mem_flatMap.mp mem
  have here := Option.mem_toList.mp here
  obtain ⟨task, known, own, pc⟩ := reading_of_reading? here
  have aligned := (tracked.readers task known).of_pc pc
  rw [own] at aligned
  rw [fetchedIn_of_reading? here]
  exact Aligned.encryptions aligned encryption mem

/-- What a start adds is a reader that opens the file. -/
theorem Tracked.spawn (tracked : Tracked cfg s) {new : StreamCipher → Flow.Action}
    (next : spawn cfg s id new = some s')
    (starts : ∀ cipher flow, Flow.Move cfg.flow s.flow (new cipher) flow → ∃ file index,
      flow.readers = s.flow.readers ++ [⟨id, .opening file index cipher⟩]) : Tracked cfg s' := by
  unfold Keystreams.spawn at next
  split at next
  next cipher made =>
    obtain ⟨flow, stepped, rfl⟩ := Option.map_eq_some_iff.mp next
    obtain ⟨file, index, readers⟩ := starts cipher flow (Flow.step_cases stepped)
    refine ⟨fun task mem => ?_, tracked.encrypted⟩
    rcases List.mem_append.mp (readers ▸ mem) with mem | mem
    · exact tracked.readers task mem
    · obtain rfl := List.mem_singleton.mp mem
      have fresh := Crypto.eq_of_made made
      rw [fresh] at made
      exact made
  next => cases next
  next => cases next

theorem step_sender {action : Flow.Action} (next : step cfg s (.sender action) = some s') :
    action.starts = false ∧ ∃ flow, Flow.Move cfg.flow s.flow action flow ∧
      s' = ⟨flow, s.fetched ++ fetchedIn s.flow action, s.encrypted ++ encryptedIn s.flow action,
        s.transmitted ++ transmissions s.flow action⟩ := by
  simp only [step] at next
  split at next
  next => cases next
  next going =>
    obtain ⟨flow, stepped, rfl⟩ := Option.map_eq_some_iff.mp next
    exact ⟨Bool.eq_false_of_not_eq_true going, flow, Flow.step_cases stepped, rfl⟩

theorem tracked_step (tracked : Tracked cfg s) (next : step cfg s action = some s') :
    Tracked cfg s' := by
  cases action with
  | start id file index =>
      refine tracked.spawn next fun cipher flow move => ⟨file, index, ?_⟩
      cases move with
      | started => rfl
      | ended here pc stops => rcases stops with stops | ⟨stops, -⟩ <;> cases stops
  | restart id file index =>
      refine tracked.spawn next fun cipher flow move => ⟨file, index, ?_⟩
      cases move with
      | restarted => rfl
      | ended here pc stops => rcases stops with stops | ⟨stops, -⟩ <;> cases stops
  | modify j file =>
      obtain ⟨task, here, rfl⟩ := Option.map_eq_some_iff.mp next
      refine ⟨aligned_set tracked.readers ?_, tracked.encrypted⟩
      exact (tracked.readers task (List.mem_of_getElem? here)).withFile file
  | sender action =>
      obtain ⟨going, flow, move, rfl⟩ := step_sender next
      refine ⟨tasks_move tracked.readers going move, fun encryption mem => ?_⟩
      rcases List.mem_append.mp mem with mem | mem
      · obtain ⟨sealed_, before⟩ := tracked.encrypted encryption mem
        exact ⟨sealed_, fun position byte spans => (before position byte spans).append_left _⟩
      · exact encryptedIn_spec tracked action encryption mem

theorem tracked_reached (reached : (machine cfg).Reachable s) : Tracked cfg s := by
  refine Machine.ReachableVia.invariant ?_ ?_ reached
  · intro s same
    obtain rfl := same
    exact ⟨fun task mem => absurd mem List.not_mem_nil,
      fun encryption mem => absurd mem List.not_mem_nil⟩
  · exact fun s action s' _ tracked _ next => tracked_step tracked next

/-- What is transmitted is sealed. -/
theorem sealed_reached (reached : (machine cfg).Reachable s) :
    ∀ encryption ∈ s.encrypted, Sealed cfg encryption :=
  fun encryption mem => ((tracked_reached reached).encrypted encryption mem).1

/-! ## Runs -/

/-- No two readers of an id got different bytes at a position. -/
def Consistent (fetched : List Fetch) : Prop :=
  ∀ id position byte byte', Fetched fetched id position byte →
    Fetched fetched id position byte' → byte = byte'

theorem fetched_spawn {new : StreamCipher → Flow.Action} (next : spawn cfg s id new = some s') :
    s.fetched = s'.fetched := by
  unfold spawn at next
  split at next
  next =>
    obtain ⟨flow, -, rfl⟩ := Option.map_eq_some_iff.mp next
    rfl
  next => cases next
  next => cases next

/-- What a reader gets it gets at once, and it is what was got before. -/
theorem fetchedIn_unchanged {action : Flow.Action} (unchanged : Unchanged s (.sender action))
    {id : UInt32} (new : Fetched (fetchedIn s.flow action) id position byte') :
    (∀ byte, Fetched s.fetched id position byte → byte = byte') ∧
      ∀ byte, Fetched (fetchedIn s.flow action) id position byte → byte = byte' := by
  obtain ⟨fetch, mem, rfl, spans⟩ := new
  obtain ⟨⟨id, r⟩, here, mem⟩ := List.mem_flatMap.mp mem
  have here := Option.mem_toList.mp here
  rw [fetchedIn_of_reading? here]
  unfold fetches at mem ⊢
  split at mem
  next empty =>
    obtain rfl := List.mem_singleton.mp mem
    rw [if_pos empty]
    refine ⟨fun byte before => ?_, ?_⟩
    · obtain ⟨behind, ahead, held⟩ := spans_fill spans
      exact unchanged id r here empty position byte byte' behind ahead before held
    · intro byte got
      obtain ⟨other, mem, -, spans'⟩ := got
      obtain rfl := List.mem_singleton.mp mem
      exact spans'.unique spans
  next => cases mem

theorem consistent_step (consistent : Consistent s.fetched) (unchanged : Unchanged s action)
    (next : step cfg s action = some s') : Consistent s'.fetched := by
  cases action with
  | start id file index => rwa [← fetched_spawn next]
  | restart id file index => rwa [← fetched_spawn next]
  | modify j file =>
      obtain ⟨task, -, rfl⟩ := Option.map_eq_some_iff.mp next
      exact consistent
  | sender action =>
      obtain ⟨-, flow, -, rfl⟩ := step_sender next
      intro id position byte byte' got got'
      rcases fetched_append got with old | new
      · rcases fetched_append got' with old' | new'
        · exact consistent id position byte byte' old old'
        · exact (fetchedIn_unchanged unchanged new').1 byte old
      · rcases fetched_append got' with old' | new'
        · exact ((fetchedIn_unchanged unchanged new).1 byte' old').symm
        · exact (fetchedIn_unchanged unchanged new').2 byte new

theorem consistent_reached (reached : (machine cfg).ReachableVia Unchanged s) :
    Consistent s.fetched := by
  induction reached with
  | init start =>
      subst start
      intro id position byte byte' got
      obtain ⟨fetch, mem, -⟩ := got
      cases mem
  | step _ unchanged next consistent => exact consistent_step consistent unchanged next

/-- **No keystream is put onto two bytes.**  In a run in which readers find unchanged what was
read before, no offset of a file's keystream is put onto two bytes in all attempts to transfer
it, whether what comes of it is transmitted or not. -/
theorem keystream_once (reached : (machine cfg).ReachableVia Unchanged s) (id : UInt32) :
    OneTime s.encrypted id := by
  have consistent := consistent_reached reached
  have tracked := tracked_reached reached.reachable
  intro first mem second mem' own own' position byte byte' spans spans'
  have got := (tracked.encrypted first mem).2 position byte spans
  have got' := (tracked.encrypted second mem').2 position byte' spans'
  rw [own] at got
  rw [own'] at got'
  exact consistent id position byte byte' got got'

/-- ChaCha20 with a key and an iv of zeros, of whose keystream the first byte is this one. -/
def zeroKeys : Config where
  flow := ⟨2, 2, 5⟩
  crates := ⟨fun _ _ _ offset => [0x76].getD offset 0, fun _ => some (2 ^ 38 - 64)⟩
  crypto := fun _ => ⟨4, List.replicate 32 0, List.replicate 12 0⟩

def oneByte (byte : UInt8) : SourceFile := ⟨[byte], Nat.one_lt_two_pow (by decide)⟩

/-- A file of one byte is sent twice. -/
def sentTwice (byte byte' : UInt8) : List Action :=
  [.start 0 (oneByte byte) 0, .sender (.open_ 0), .sender (.acquireRead 0),
    .sender (.readChunk 0), .sender .addPermit, .sender (.acquireSend 0), .sender (.receive 0),
    .sender (.send 0), .restart 0 (oneByte byte') 0, .sender (.open_ 1),
    .sender (.acquireRead 1), .sender (.readChunk 1), .sender .addPermit,
    .sender (.acquireSend 1), .sender (.receive 1), .sender (.send 1)]

/-- What a state has sent, but for the jobs. -/
def State.uses (s : State) : List (Nat × Bytes) :=
  s.sent.map fun encryption => (encryption.offset, encryption.plain)

/-- The source changes between two attempts, and both are sent with the same keystream. -/
theorem changed_source_reuses : ∃ s, (machine zeroKeys).Reachable s ∧
    s.uses = [(0, [1]), (0, [2])] ∧ ¬ OneTime s.sent 0 := by
  obtain ⟨s, reached, passed⟩ := Machine.reachable_of_test (M := machine zeroKeys) rfl
    (sentTwice 1 2)
    (fun s => decide (s.uses = [(0, [1]), (0, [2])] ∧
      s.sent.all (fun encryption => decide (encryption.job.id = 0)) = true)) (by decide +kernel)
  obtain ⟨uses, ids⟩ := of_decide_eq_true passed
  refine ⟨s, reached, uses, fun once => ?_⟩
  have own : ∀ encryption ∈ s.sent, encryption.job.id = 0 := fun encryption mem =>
    of_decide_eq_true (List.all_eq_true.mp ids encryption mem)
  have used : ∀ offset plain, (offset, plain) ∈ s.uses → ∃ encryption ∈ s.sent,
      encryption.offset = offset ∧ encryption.plain = plain := by
    intro offset plain mem
    obtain ⟨encryption, mem, same⟩ := List.mem_map.mp mem
    exact ⟨encryption, mem, (Prod.mk.inj same).1, (Prod.mk.inj same).2⟩
  rw [uses] at used
  obtain ⟨first, mem, offset, plain⟩ := used 0 [1] (by decide)
  obtain ⟨second, mem', offset', plain'⟩ := used 0 [2] (by decide)
  have same := once first mem second mem' (own first mem) (own second mem') 0 1 2
    (by rw [offset, plain]; exact ⟨Nat.le_refl _, rfl⟩)
    (by rw [offset', plain']; exact ⟨Nat.le_refl _, rfl⟩)
  revert same
  decide

/-- A test of a step for `Unchanged`: the file has all bytes that were got so far. -/
def hasAll (s : State) : Action → Bool
  | .sender action => (reading? s.flow action).all fun reading =>
      s.fetched.all fun fetch =>
        decide (reading.2.source.file.drop fetch.position = fetch.bytes)
  | _ => true

theorem unchanged_of_hasAll (tested : hasAll s action = true) : Unchanged s action := by
  cases action with
  | sender action =>
      intro id r here empty position byte byte' _ _ got new
      obtain ⟨fetch, mem, -, behind, old⟩ := got
      rw [hasAll, here] at tested
      have same := of_decide_eq_true (List.all_eq_true.mp tested fetch mem)
      rw [← same, List.getElem?_drop, Nat.add_sub_cancel' behind] at old
      exact Option.some.inj (old.symm.trans new)
  | start | restart | modify => trivial

/-- The source stays the same, and the attempts may share a keystream. -/
theorem keystream_once_same_source : ∃ s, (machine zeroKeys).ReachableVia Unchanged s ∧
    s.uses = [(0, [1]), (0, [1])] ∧ OneTime s.encrypted 0 := by
  obtain ⟨s, reached, uses⟩ := Machine.reachableVia_of_test (M := machine zeroKeys) rfl
    (sentTwice 1 1) hasAll (fun s => decide (s.uses = [(0, [1]), (0, [1])])) (by decide +kernel)
  have unchanged := reached.mono fun s action => unchanged_of_hasAll
  exact ⟨s, unchanged, of_decide_eq_true uses, keystream_once unchanged 0⟩

end Keystreams

end Cccp
