import Cccp.Lib.Machine
import Cccp.Sender.Reader
import Mathlib.Data.Finset.Card

/-!
# Jobs and permits of the sender

What `sender::main` spawns besides its controller: the readers, the sender tasks, the task
that adds send permits, the task that requeues unconfirmed jobs and the loop that
processes confirmations.  They share the job queue, the cache of unconfirmed jobs, the set
of lost confirmations and two semaphores.

One step is one awaited operation of one of them.  A job in the cache may time out at
any step, and any confirmation may arrive at any step; each is processed under both
locks, as one step.

`started`, `produced`, `retired` and `earlier` only record what happened: the ids whose
reader was spawned, the chunks the latest reader of their id has queued, those of them
that left the cache for good, and how many chunks earlier attempts had.
-/

namespace Cccp

namespace Flow

/-! ## States -/

structure Config where
  /-- `options.job_limit` -/
  jobLimit : Nat
  /-- the number of sender tasks -/
  threads : Nat
  maxRetries : Nat

/-- The contents of a file, whose size is a nonnegative `i64` to the operating system. -/
structure SourceFile where
  contents : Bytes
  fits : contents.length < 2 ^ 63

/-- The next operation of a reader.  In `reading` and `queued` it holds a permit; in
`queued` it has queued the job with this index. -/
inductive ReaderPc where
  | opening (file : SourceFile) (index : UInt64) (cipher : StreamCipher)
  | acquiring (reader : Reader)
  | reading (reader : Reader)
  | queued (index : UInt64) (reader : Reader)
  | stopped

structure ReaderTask where
  id : UInt32
  pc : ReaderPc

/-- The next operation of a sender task. -/
inductive TaskPc where
  | acquiring
  | receiving
  | sending (job : Sender.Job)
  | caching (job : Sender.Job)
  | exited

structure SenderTask where
  pc : TaskPc
  retries : Nat

structure State where
  /-- available permits of the semaphore `read` -/
  read : Nat
  /-- available permits of the semaphore `send` -/
  send : Nat
  readers : List ReaderTask
  queue : List Sender.Job
  tasks : List SenderTask
  cache : HashMap ChunkKey Sender.Job
  lost : Finset ChunkKey
  confirmed : Nat
  sent : Nat
  started : List UInt32
  produced : List ChunkKey
  retired : List ChunkKey
  earlier : Nat

inductive Action where
  | start (id : UInt32) (file : SourceFile) (index : UInt64) (cipher : StreamCipher)
  | restart (id : UInt32) (file : SourceFile) (index : UInt64) (cipher : StreamCipher)
  | open_ (reader : Nat)
  | readerFails (reader : Nat)
  | acquireRead (reader : Nat)
  | readChunk (reader : Nat)
  | forget (reader : Nat)
  | addPermit
  | acquireSend (task : Nat)
  | receive (task : Nat)
  | send (task : Nat)
  | sendFails (task : Nat)
  | cacheJob (task : Nat)
  | confirm (key : ChunkKey)
  | timeout (key : ChunkKey)

/-- The id and the index of a job, its key in the cache. -/
def key (job : Sender.Job) : ChunkKey := (job.id, job.index)

namespace State

variable (s : State)

def setReader (index : Nat) (reader : ReaderTask) (pc : ReaderPc) : State :=
  { s with readers := s.readers.set index { reader with pc := pc } }

def setTask (index : Nat) (task : SenderTask) : State :=
  { s with tasks := s.tasks.set index task }

/-- Spawn a reader. -/
def spawn (id : UInt32) (file : SourceFile) (index : UInt64) (cipher : StreamCipher) : State :=
  { s with
    readers := s.readers ++ [⟨id, .opening file index cipher⟩]
    started := s.started ++ [id] }

/-- The chunks of an earlier attempt of `id` count as such. -/
def replaceAttempt (id : UInt32) : State :=
  { s with
    produced := s.produced.filter fun key => decide (key.1 ≠ id)
    retired := s.retired.filter fun key => decide (key.1 ≠ id)
    earlier := s.earlier + s.retired.countP fun key => decide (key.1 = id) }

/-- A job leaves the cache for good: its permit is given back. -/
def retire (key : ChunkKey) : State :=
  { s with
    cache := s.cache.erase key
    read := s.read + 1
    confirmed := s.confirmed + 1
    retired := s.retired ++ [key] }

end State

/-! ## Steps -/

/-- One round of `while retries < max_retries`, at its beginning. -/
def TaskPc.again (cfg : Config) (retries : Nat) : TaskPc :=
  if retries < cfg.maxRetries then .acquiring else .exited

def readerStep (s : State) (index : Nat) (reader : ReaderTask) : Action → Option State
  | .open_ _ =>
      match reader.pc with
      | .opening file start cipher =>
          -- `seek` panics past the end of the keystream
          if cipher.past start.toNat then some (s.setReader index reader .stopped)
          else
            some (s.setReader index reader
              (.acquiring (Reader.start file.contents start reader.id cipher)))
      | _ => none
  | .readerFails _ =>
      match reader.pc with
      | .opening .. => some (s.setReader index reader .stopped)
      | .reading _ => some ({ s with read := s.read + 1 }.setReader index reader .stopped)
      | _ => none
  | .acquireRead _ =>
      match reader.pc with
      | .acquiring r =>
          if 0 < s.read then
            some ({ s with read := s.read - 1 }.setReader index reader (.reading r))
          else none
      | _ => none
  | .readChunk _ =>
      match reader.pc with
      | .reading r =>
          match r.next reader.id with
          | none => some ({ s with read := s.read + 1 }.setReader index reader .stopped)
          | some (job, r') =>
              -- so does `apply_keystream`, which drops the permit
              if r'.cipher.past r'.cipher.offset then
                some ({ s with read := s.read + 1 }.setReader index reader .stopped)
              else
                some ({ s with
                  queue := s.queue ++ [job]
                  produced := s.produced ++ [key job] }.setReader index reader
                    (.queued job.index r'))
      | _ => none
  | .forget _ =>
      match reader.pc with
      | .queued _ r => some (s.setReader index reader (.acquiring r))
      | _ => none
  | _ => none

def taskStep (cfg : Config) (s : State) (index : Nat) (task : SenderTask) :
    Action → Option State
  | .acquireSend _ =>
      match task.pc with
      | .acquiring =>
          if 0 < s.send then
            some ({ s with send := s.send - 1 }.setTask index { task with pc := .receiving })
          else none
      | _ => none
  | .receive _ =>
      match task.pc, s.queue with
      | .receiving, job :: rest =>
          some ({ s with queue := rest }.setTask index { task with pc := .sending job })
      | _, _ => none
  | .send _ =>
      match task.pc with
      | .sending job => some (s.setTask index { task with pc := .caching job })
      | _ => none
  | .sendFails _ =>
      match task.pc with
      | .sending job =>
          -- put the job back in the queue
          some ({ s with queue := s.queue ++ [job] }.setTask index
            ⟨TaskPc.again cfg (task.retries + 1), task.retries + 1⟩)
      | _ => none
  | .cacheJob _ =>
      match task.pc with
      | .caching job =>
          some ({ s with
            cache := s.cache.insert (key job) job
            sent := s.sent + 1 }.setTask index ⟨TaskPc.again cfg 0, 0⟩)
      | _ => none
  | _ => none

/-- One index of a `Confirmations` message. -/
def confirm (s : State) (key : ChunkKey) : State :=
  if key ∈ s.cache then s.retire key
  else { s with lost := insert key s.lost }

/-- The requeue task finds that the job of a key has been in the cache for too long. -/
def timeout (s : State) (key : ChunkKey) : State :=
  match s.cache.lookup key with
  | none => s
  | some unconfirmed =>
      -- the job is not requeued if it was confirmed while outside the cache
      if key ∈ s.lost then { s.retire key with lost := s.lost.erase key }
      else { s with cache := s.cache.erase key, queue := s.queue ++ [unconfirmed] }

def step (cfg : Config) (s : State) (action : Action) : Option State :=
  match action with
  | .start id file index cipher =>
      if id ∈ s.started then none else some (s.spawn id file index cipher)
  | .restart id file index cipher =>
      if id ∈ s.started then some ((s.replaceAttempt id).spawn id file index cipher) else none
  | .open_ index | .readerFails index | .acquireRead index | .readChunk index | .forget index =>
      s.readers[index]?.bind fun reader => readerStep s index reader action
  | .acquireSend index | .receive index | .send index | .sendFails index | .cacheJob index =>
      s.tasks[index]?.bind fun task => taskStep cfg s index task action
  | .addPermit =>
      -- don't want too many permits to build up
      if s.send < 1000 then some { s with send := s.send + 1 } else none
  | .confirm key => some (confirm s key)
  | .timeout key => some (timeout s key)

def initial (cfg : Config) : State where
  read := cfg.jobLimit
  send := 0
  readers := []
  queue := []
  tasks := List.replicate cfg.threads ⟨TaskPc.again cfg 0, 0⟩
  cache := ∅
  lost := ∅
  confirmed := 0
  sent := 0
  started := []
  produced := []
  retired := []
  earlier := 0

def machine (cfg : Config) : Machine State Action where
  init s := s = initial cfg
  step := step cfg

/-! ## What a step can do -/

/-- The steps of the sender's tasks. -/
inductive Move (cfg : Config) (s : State) : Action → State → Prop
  | started {id : UInt32} {file : SourceFile} {index : UInt64} {cipher : StreamCipher}
      (fresh : id ∉ s.started) :
      Move cfg s (.start id file index cipher) (s.spawn id file index cipher)
  | restarted {id : UInt32} {file : SourceFile} {index : UInt64} {cipher : StreamCipher}
      (known : id ∈ s.started) :
      Move cfg s (.restart id file index cipher) ((s.replaceAttempt id).spawn id file index cipher)
  | opened {j : Nat} {reader : ReaderTask} {file : SourceFile} {index : UInt64}
      {cipher : StreamCipher} (here : s.readers[j]? = some reader)
      (pc : reader.pc = .opening file index cipher) (lasts : cipher.past index.toNat = false) :
      Move cfg s (.open_ j)
        (s.setReader j reader (.acquiring (Reader.start file.contents index reader.id cipher)))
  | unseekable {j : Nat} {reader : ReaderTask} {file : SourceFile} {index : UInt64}
      {cipher : StreamCipher} (here : s.readers[j]? = some reader)
      (pc : reader.pc = .opening file index cipher) (past : cipher.past index.toNat = true) :
      Move cfg s (.open_ j) (s.setReader j reader .stopped)
  | unopened {j : Nat} {reader : ReaderTask} {file : SourceFile} {index : UInt64}
      {cipher : StreamCipher} (here : s.readers[j]? = some reader)
      (pc : reader.pc = .opening file index cipher) :
      Move cfg s (.readerFails j) (s.setReader j reader .stopped)
  | ended {action : Action} {j : Nat} {reader : ReaderTask} {r : Reader}
      (here : s.readers[j]? = some reader) (pc : reader.pc = .reading r)
      (stops : action = .readerFails j ∨ action = .readChunk j ∧
        ∀ job r', r.next reader.id = some (job, r') → r'.cipher.past r'.cipher.offset = true) :
      Move cfg s action ({ s with read := s.read + 1 }.setReader j reader .stopped)
  | acquired {j : Nat} {reader : ReaderTask} {r : Reader} (here : s.readers[j]? = some reader)
      (pc : reader.pc = .acquiring r) (available : 0 < s.read) :
      Move cfg s (.acquireRead j)
        ({ s with read := s.read - 1 }.setReader j reader (.reading r))
  | produced {j : Nat} {reader : ReaderTask} {r r' : Reader} {job : Sender.Job}
      (here : s.readers[j]? = some reader) (pc : reader.pc = .reading r)
      (next : r.next reader.id = some (job, r'))
      (lasts : r'.cipher.past r'.cipher.offset = false) :
      Move cfg s (.readChunk j)
        ({ s with queue := s.queue ++ [job], produced := s.produced ++ [key job] }.setReader j
          reader (.queued job.index r'))
  | forgot {j : Nat} {reader : ReaderTask} {index : UInt64} {r : Reader}
      (here : s.readers[j]? = some reader) (pc : reader.pc = .queued index r) :
      Move cfg s (.forget j) (s.setReader j reader (.acquiring r))
  | permitted : Move cfg s .addPermit { s with send := s.send + 1 }
  | sendAcquired {t : Nat} {task : SenderTask} (here : s.tasks[t]? = some task)
      (pc : task.pc = .acquiring) :
      Move cfg s (.acquireSend t)
        ({ s with send := s.send - 1 }.setTask t { task with pc := .receiving })
  | received {t : Nat} {task : SenderTask} {job : Sender.Job} {rest : List Sender.Job}
      (here : s.tasks[t]? = some task) (pc : task.pc = .receiving) (queue : s.queue = job :: rest) :
      Move cfg s (.receive t) ({ s with queue := rest }.setTask t { task with pc := .sending job })
  | sent {t : Nat} {task : SenderTask} {job : Sender.Job} (here : s.tasks[t]? = some task)
      (pc : task.pc = .sending job) :
      Move cfg s (.send t) (s.setTask t { task with pc := .caching job })
  | sendFailed {t : Nat} {task : SenderTask} {job : Sender.Job} (here : s.tasks[t]? = some task)
      (pc : task.pc = .sending job) :
      Move cfg s (.sendFails t) ({ s with queue := s.queue ++ [job] }.setTask t
        ⟨TaskPc.again cfg (task.retries + 1), task.retries + 1⟩)
  | cached {t : Nat} {task : SenderTask} {job : Sender.Job} (here : s.tasks[t]? = some task)
      (pc : task.pc = .caching job) :
      Move cfg s (.cacheJob t) ({ s with
        cache := s.cache.insert (key job) job
        sent := s.sent + 1 }.setTask t ⟨TaskPc.again cfg 0, 0⟩)
  | confirmed {key : ChunkKey} (mem : key ∈ s.cache) : Move cfg s (.confirm key) (s.retire key)
  | lost {key : ChunkKey} (absent : key ∉ s.cache) :
      Move cfg s (.confirm key) { s with lost := insert key s.lost }
  | requeued {key : ChunkKey} {job : Sender.Job} (found : s.cache.lookup key = some job)
      (unconfirmed : key ∉ s.lost) :
      Move cfg s (.timeout key)
        { s with cache := s.cache.erase key, queue := s.queue ++ [job] }
  | late {key : ChunkKey} (mem : key ∈ s.cache) (confirmed : key ∈ s.lost) :
      Move cfg s (.timeout key) { s.retire key with lost := s.lost.erase key }
  | gone {key : ChunkKey} (absent : key ∉ s.cache) : Move cfg s (.timeout key) s

variable {cfg : Config} {s s' : State} {action : Action}

theorem readerStep_cases {j : Nat} {reader : ReaderTask} (here : s.readers[j]? = some reader)
    (next : readerStep s j reader action = some s')
    (index : action = .open_ j ∨ action = .readerFails j ∨ action = .acquireRead j ∨
      action = .readChunk j ∨ action = .forget j) : Move cfg s action s' := by
  rcases index with rfl | rfl | rfl | rfl | rfl <;> simp only [readerStep] at next
  · split at next
    next pc =>
      split at next
      next past =>
        cases next
        exact .unseekable here pc past
      next lasts =>
        cases next
        exact .opened here pc (Bool.eq_false_of_not_eq_true lasts)
    next => cases next
  · split at next
    next pc =>
      cases next
      exact .unopened here pc
    next pc =>
      cases next
      exact .ended here pc (.inl rfl)
    next => cases next
  · split at next
    next pc =>
      split at next
      next available =>
        cases next
        exact .acquired here pc available
      next => cases next
    next => cases next
  · split at next
    next pc =>
      split at next
      next none_ =>
        cases next
        refine .ended here pc (.inr ⟨rfl, fun job r' more => ?_⟩)
        cases none_.symm.trans more
      next more =>
        split at next
        next past =>
          cases next
          refine .ended here pc (.inr ⟨rfl, fun job r' more' => ?_⟩)
          cases more.symm.trans more'
          exact past
        next lasts =>
          cases next
          exact .produced here pc more (Bool.eq_false_of_not_eq_true lasts)
    next => cases next
  · split at next
    next pc =>
      cases next
      exact .forgot here pc
    next => cases next

theorem taskStep_cases {t : Nat} {task : SenderTask} (here : s.tasks[t]? = some task)
    (next : taskStep cfg s t task action = some s')
    (index : action = .acquireSend t ∨ action = .receive t ∨ action = .send t ∨
      action = .sendFails t ∨ action = .cacheJob t) : Move cfg s action s' := by
  rcases index with rfl | rfl | rfl | rfl | rfl <;> simp only [taskStep] at next
  · split at next
    next pc =>
      split at next
      next =>
        cases next
        exact .sendAcquired here pc
      next => cases next
    next => cases next
  · split at next
    next pc queue =>
      cases next
      exact .received here pc queue
    next => cases next
  · split at next
    next pc =>
      cases next
      exact .sent here pc
    next => cases next
  · split at next
    next pc =>
      cases next
      exact .sendFailed here pc
    next => cases next
  · split at next
    next pc =>
      cases next
      exact .cached here pc
    next => cases next

/-- Every step is one of the moves. -/
theorem step_cases (next : step cfg s action = some s') : Move cfg s action s' := by
  cases action with
  | start id file index cipher =>
      simp only [step] at next
      split at next
      next => cases next
      next fresh =>
        cases next
        exact .started fresh
  | restart id file index cipher =>
      simp only [step] at next
      split at next
      next known =>
        cases next
        exact .restarted known
      next => cases next
  | addPermit =>
      simp only [step] at next
      split at next
      next =>
        cases next
        exact .permitted
      next => cases next
  | confirm key =>
      cases next
      unfold confirm
      split
      next mem => exact .confirmed mem
      next absent => exact .lost absent
  | timeout key =>
      cases next
      unfold timeout
      split
      next none_ => exact .gone (AList.lookup_eq_none.mp none_)
      next job found =>
        split
        next confirmed => exact .late (AList.lookup_isSome.mp (by rw [found]; rfl)) confirmed
        next unconfirmed => exact .requeued found unconfirmed
  | open_ j =>
      obtain ⟨reader, here, next⟩ := Option.bind_eq_some_iff.mp next
      exact readerStep_cases here next (by simp)
  | readerFails j =>
      obtain ⟨reader, here, next⟩ := Option.bind_eq_some_iff.mp next
      exact readerStep_cases here next (by simp)
  | acquireRead j =>
      obtain ⟨reader, here, next⟩ := Option.bind_eq_some_iff.mp next
      exact readerStep_cases here next (by simp)
  | readChunk j =>
      obtain ⟨reader, here, next⟩ := Option.bind_eq_some_iff.mp next
      exact readerStep_cases here next (by simp)
  | forget j =>
      obtain ⟨reader, here, next⟩ := Option.bind_eq_some_iff.mp next
      exact readerStep_cases here next (by simp)
  | acquireSend t =>
      obtain ⟨task, here, next⟩ := Option.bind_eq_some_iff.mp next
      exact taskStep_cases here next (by simp)
  | receive t =>
      obtain ⟨task, here, next⟩ := Option.bind_eq_some_iff.mp next
      exact taskStep_cases here next (by simp)
  | send t =>
      obtain ⟨task, here, next⟩ := Option.bind_eq_some_iff.mp next
      exact taskStep_cases here next (by simp)
  | sendFails t =>
      obtain ⟨task, here, next⟩ := Option.bind_eq_some_iff.mp next
      exact taskStep_cases here next (by simp)
  | cacheJob t =>
      obtain ⟨task, here, next⟩ := Option.bind_eq_some_iff.mp next
      exact taskStep_cases here next (by simp)

end Flow

end Cccp
