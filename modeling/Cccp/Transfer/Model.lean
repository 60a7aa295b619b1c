import Cccp.Receiver.Confirmed
import Cccp.Sender.Jobs

/-!
# The data path

The sender's tasks of `Cccp.Sender.Flow`, the UDP network, the receiver's writers, and
the confirmations on their way back.

A datagram stays in the network after its delivery: it may arrive again, late, or never,
and in any order.  Confirmations and failures travel on the encrypted stream, so they
arrive once each; a `Confirmations` message groups its indexes by id, and their order is
left open.  What a datagram finds no room or no queue for is lost like one that never
arrives, so the queues of `SplitQueue` are part of the network.

`start_file_transfer`, with the exchange on the control stream, counts as one step.
-/

namespace Cccp

/-- A step of the sender's tasks that involves neither the controller nor a confirmation. -/
def Flow.Action.isOwn : Flow.Action → Bool
  | .start .. | .restart .. | .confirm _ => false
  | _ => true

theorem Flow.Action.startsOnce_of_isOwn {action : Flow.Action} (own : action.isOwn = true) :
    action.startsOnce = true := by
  cases action with
  | restart => cases own
  | _ => rfl

namespace Transfer

/-! ## States -/

structure Config where
  flow : Flow.Config
  source : UInt32 → Flow.SourceFile
  /-- the sizes in the manifest -/
  size : UInt32 → UInt64

/-- The receiver's side of the latest attempt to transfer a file, which begins at `first`. -/
inductive Attempt where
  | unstarted
  | starting (first : UInt64) (cipher : StreamCipher)
  | running (first : UInt64) (writer : Writer)
  | ended (first : UInt64) (writer : Writer)

def Attempt.first? : Attempt → Option UInt64
  | unstarted => none
  | starting first _ | running first _ | ended first _ => some first

def Attempt.writer? : Attempt → Option Writer
  | running _ writer | ended _ writer => some writer
  | _ => none

structure State where
  flow : Flow.State
  /-- the datagrams sent so far -/
  network : List Bytes
  attempts : UInt32 → Attempt
  /-- the confirmations on their way to the sender -/
  confirmations : List ChunkKey
  /-- the ids of the `Failure` messages with reason 0 on their way to the sender -/
  failures : List UInt32

inductive Action where
  | start (id : UInt32) (index : UInt64) (cipher : StreamCipher)
  | retry (id : UInt32) (index : UInt64) (cipher : StreamCipher)
  | sender (action : Flow.Action)
  | open_ (id : UInt32)
  | deliver (datagram : Nat)
  | mismatch (id : UInt32)
  | writerFails (id : UInt32)
  | confirm (key : ChunkKey)

/-- Every id is started once. -/
def Action.startsOnce : Action → Bool
  | .retry .. => false
  | _ => true

namespace State

variable (s : State)

def setAttempt (id : UInt32) (attempt : Attempt) : State :=
  { s with attempts := fun other => if other = id then attempt else s.attempts other }

def setFlow (flow : Flow.State) : State := { s with flow := flow }

/-- The confirmations of a round of a writer's loop are on their way. -/
def confirmAll (id : UInt32) (before after : Writer) : State :=
  { s with confirmations :=
      s.confirmations ++ (after.confirmed.drop before.confirmed.length).map fun index => (id, index) }

end State

/-! ## Steps -/

/-- What a step of the sender's tasks puts on the network. -/
def datagrams (flow : Flow.State) : Flow.Action → List Bytes
  | .send task =>
      match flow.tasks[task]?.bind fun task => task.pc.job? with
      | some job => [job.data]
      | none => []
  | _ => []

/-- A datagram fills the receiver's buffer and is handled by the writer of its id, if that
still receives. -/
def arrive (cfg : Config) (s : State) (datagram : Bytes) : State :=
  let frame := Receiver.decodeFrame datagram
  match s.attempts frame.1 with
  | .running first writer =>
      if writer.position = cfg.size frame.1 then s
      else
        let writer' := writer.handle (cfg.size frame.1) frame.2
        (s.confirmAll frame.1 writer writer').setAttempt frame.1 (.running first writer')
  | _ => s

def step (cfg : Config) (s : State) : Action → Option State
  | .start id index cipher =>
      if id ∈ s.flow.started then none
      else some ((s.setFlow (s.flow.spawn id (cfg.source id) index cipher)).setAttempt id
        (.starting index cipher))
  | .retry id index cipher =>
      if id ∈ s.failures ∧ id ∈ s.flow.started then
        some (({ s with failures := s.failures.erase id }.setFlow
          ((s.flow.replaceAttempt id).spawn id (cfg.source id) index cipher)).setAttempt id
            (.starting index cipher))
      else none
  | .sender action =>
      if action.isOwn then
        (Flow.step cfg.flow s.flow action).map fun flow =>
          { s.setFlow flow with network := s.network ++ datagrams s.flow action }
      else none
  | .open_ id =>
      match s.attempts id with
      | .starting first cipher =>
          some (s.setAttempt id (.running first (Writer.start first cipher)))
      | _ => none
  | .deliver index => s.network[index]?.map (arrive cfg s)
  | .mismatch id =>
      match s.attempts id with
      | .running first writer =>
          -- the loop has exited, and the hash is not the sender's
          if writer.position = cfg.size id then
            some ({ s with failures := s.failures ++ [id] }.setAttempt id (.ended first writer))
          else none
      | _ => none
  | .writerFails id =>
      match s.attempts id with
      | .running first writer => some (s.setAttempt id (.ended first writer))
      | _ => none
  | .confirm key =>
      if key ∈ s.confirmations then
        some ({ s with confirmations := s.confirmations.erase key }.setFlow
          (Flow.confirm s.flow key))
      else none

def initial (cfg : Config) : State where
  flow := Flow.initial cfg.flow
  network := []
  attempts _ := .unstarted
  confirmations := []
  failures := []

def machine (cfg : Config) : Machine State Action where
  init s := s = initial cfg
  step := step cfg

/-! ## What a step can do -/

/-- The steps of the data path. -/
inductive Move (cfg : Config) (s : State) : Action → State → Prop
  | started {id : UInt32} {index : UInt64} {cipher : StreamCipher} (fresh : id ∉ s.flow.started) :
      Move cfg s (.start id index cipher)
        ((s.setFlow (s.flow.spawn id (cfg.source id) index cipher)).setAttempt id
          (.starting index cipher))
  | retried {id : UInt32} {index : UInt64} {cipher : StreamCipher} (failed : id ∈ s.failures)
      (known : id ∈ s.flow.started) :
      Move cfg s (.retry id index cipher)
        (({ s with failures := s.failures.erase id }.setFlow
          ((s.flow.replaceAttempt id).spawn id (cfg.source id) index cipher)).setAttempt id
            (.starting index cipher))
  | flowed {action : Flow.Action} {flow : Flow.State} (own : action.isOwn = true)
      (move : Flow.Move cfg.flow s.flow action flow) :
      Move cfg s (.sender action)
        { s.setFlow flow with network := s.network ++ datagrams s.flow action }
  | opened {id : UInt32} {first : UInt64} {cipher : StreamCipher}
      (here : s.attempts id = .starting first cipher) :
      Move cfg s (.open_ id) (s.setAttempt id (.running first (Writer.start first cipher)))
  | handled {index : Nat} {datagram : Bytes} {id : UInt32} {job : Receiver.Job} {first : UInt64}
      {writer : Writer} (mem : datagram ∈ s.network)
      (frame : Receiver.decodeFrame datagram = (id, job))
      (here : s.attempts id = .running first writer) (more : writer.position ≠ cfg.size id) :
      Move cfg s (.deliver index)
        ((s.confirmAll id writer (writer.handle (cfg.size id) job)).setAttempt id
          (.running first (writer.handle (cfg.size id) job)))
  | ignored {index : Nat} : Move cfg s (.deliver index) s
  | mismatched {id : UInt32} {first : UInt64} {writer : Writer}
      (here : s.attempts id = .running first writer) (complete : writer.position = cfg.size id) :
      Move cfg s (.mismatch id)
        ({ s with failures := s.failures ++ [id] }.setAttempt id (.ended first writer))
  | failed {id : UInt32} {first : UInt64} {writer : Writer}
      (here : s.attempts id = .running first writer) :
      Move cfg s (.writerFails id) (s.setAttempt id (.ended first writer))
  | confirmed {key : ChunkKey} {flow : Flow.State} (mem : key ∈ s.confirmations)
      (move : Flow.Move cfg.flow s.flow (.confirm key) flow) :
      Move cfg s (.confirm key)
        ({ s with confirmations := s.confirmations.erase key }.setFlow flow)

variable {cfg : Config} {s s' : State} {action : Action}

/-- Every step is one of the moves. -/
theorem step_cases (next : step cfg s action = some s') : Move cfg s action s' := by
  cases action with
  | start id index cipher =>
      simp only [step] at next
      split at next
      next => cases next
      next fresh =>
        cases next
        exact .started fresh
  | retry id index cipher =>
      simp only [step] at next
      split at next
      next enabled =>
        cases next
        exact .retried enabled.1 enabled.2
      next => cases next
  | sender action =>
      simp only [step] at next
      split at next
      next own =>
        obtain ⟨flow, found, rfl⟩ := Option.map_eq_some_iff.mp next
        exact .flowed own (Flow.step_cases found)
      next => cases next
  | open_ id =>
      simp only [step] at next
      split at next
      next here =>
        cases next
        exact .opened here
      next => cases next
  | deliver index =>
      obtain ⟨datagram, here, rfl⟩ := Option.map_eq_some_iff.mp next
      unfold arrive
      dsimp only
      split
      next running =>
        split
        next => exact .ignored
        next more => exact .handled (List.mem_of_getElem? here) rfl running more
      next => exact .ignored
  | mismatch id =>
      simp only [step] at next
      split at next
      next here =>
        split at next
        next complete =>
          cases next
          exact .mismatched here complete
        next => cases next
      next => cases next
  | writerFails id =>
      simp only [step] at next
      split at next
      next here =>
        cases next
        exact .failed here
      next => cases next
  | confirm key =>
      simp only [step] at next
      split at next
      next mem =>
        cases next
        exact .confirmed mem (Flow.step_cases rfl)
      next => cases next

/-! ## The attempts -/

@[simp] theorem setAttempt_self (s : State) (id : UInt32) (attempt : Attempt) :
    (s.setAttempt id attempt).attempts id = attempt := if_pos rfl

theorem setAttempt_ne (s : State) {id other : UInt32} (apart : other ≠ id) (attempt : Attempt) :
    (s.setAttempt id attempt).attempts other = s.attempts other := if_neg apart

end Transfer

end Cccp
