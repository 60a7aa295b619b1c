import Cccp.Items
import Cccp.Lib.Grouping
import Cccp.Lib.Machine

/-!
# Confirmations on their way

What the writers confirm goes through two tasks of `send_confirmations`, which share a
vector, through `send_messages`, over the control stream, and through `split_receiver`, until
`receive_confirmations` takes it in.  One step is one awaited operation of one of them; the
lock on the vector is never held across one.  The control stream delivers messages once and in
order.

`confirmations_conserved`: whatever the order of the steps, every confirmation is in exactly
one place, as often as it was emitted.
-/

namespace Cccp

namespace Confirmations

open Grouping

/-- A `Confirmations` message: indexes by id. -/
abbrev Indexes := HashMap UInt32 (List UInt64)

/-! ## States -/

/-- The next operation of the loop of `send_confirmations` that collects confirmations. -/
inductive CollectorPc where
  | receiving
  | locking (confirmation : ChunkKey)

/-- The next operation of its task that batches them: it waits for the interval and the lock,
groups what it took, or sends the message. -/
inductive BatcherPc where
  | ticking
  | grouping (confirmations : List ChunkKey)
  | sending (message : Message)

/-- The next operation of `send_messages`. -/
inductive MessengerPc where
  | receiving
  | writing (message : Message)

/-- The next operation of `split_receiver`. -/
inductive SplitterPc where
  | reading
  | forwarding (message : Message)
  | failed

/-- `emitted` and `handed` only record what the writers emitted and what
`receive_confirmations` took in. -/
structure State where
  emitted : List ChunkKey
  /-- the channel from the writers -/
  confirmations : List ChunkKey
  collector : CollectorPc
  confirmedPackets : Nat
  /-- the shared vector -/
  data : List ChunkKey
  batcher : BatcherPc
  /-- the channel to `send_messages` -/
  messages : List Message
  messenger : MessengerPc
  /-- the control stream -/
  stream : List Message
  splitter : SplitterPc
  /-- the channel to `receive_confirmations` -/
  indexes : List Indexes
  /-- the channel to the controller -/
  reports : List Message
  handed : List Indexes

inductive Action where
  | emit (confirmation : ChunkKey)
  | report (message : Message)
  | receive
  | push
  | take
  | group
  | sendBatch
  | receiveMessage
  | write
  | read
  | forward
  | hand

/-- The messages the writers send. -/
def isReport : Message → Bool
  | .end_ _ | .failure .. => true
  | _ => false

/-! ## Steps -/

/-- The collecting loop of `send_confirmations`. -/
def collect (s : State) : Action → Option State
  | .receive =>
      match s.collector, s.confirmations with
      | .receiving, confirmation :: rest =>
          some { s with
            confirmations := rest
            confirmedPackets := s.confirmedPackets + 1
            collector := .locking confirmation }
      | _, _ => none
  | .push =>
      match s.collector with
      | .locking confirmation =>
          some { s with data := s.data ++ [confirmation], collector := .receiving }
      | _ => none
  | _ => none

/-- The batching task of `send_confirmations`. -/
def batch (s : State) : Action → Option State
  | .take =>
      match s.batcher with
      | .ticking =>
          if s.data = [] then some s
          else some { s with data := [], batcher := .grouping s.data }
      | _ => none
  | .group =>
      match s.batcher with
      | .grouping confirmations =>
          some { s with batcher := .sending (.confirmations (Grouping.group confirmations)) }
      | _ => none
  | .sendBatch =>
      match s.batcher with
      | .sending message =>
          some { s with messages := s.messages ++ [message], batcher := .ticking }
      | _ => none
  | _ => none

/-- `send_messages` -/
def sendMessages (s : State) : Action → Option State
  | .receiveMessage =>
      match s.messenger, s.messages with
      | .receiving, message :: rest =>
          some { s with messages := rest, messenger := .writing message }
      | _, _ => none
  | .write =>
      match s.messenger with
      | .writing message =>
          some { s with stream := s.stream ++ [message], messenger := .receiving }
      | _ => none
  | _ => none

/-- `split_receiver`, which fails on a message that is neither confirmations nor a report. -/
def splitReceiver (s : State) : Action → Option State
  | .read =>
      match s.splitter, s.stream with
      | .reading, message :: rest =>
          some { s with stream := rest, splitter := .forwarding message }
      | _, _ => none
  | .forward =>
      match s.splitter with
      | .forwarding (.confirmations indexes) =>
          some { s with indexes := s.indexes ++ [indexes], splitter := .reading }
      | .forwarding message =>
          if isReport message then
            some { s with reports := s.reports ++ [message], splitter := .reading }
          else some { s with splitter := .failed }
      | _ => none
  | _ => none

def step (s : State) (action : Action) : Option State :=
  match action with
  | .emit confirmation =>
      some { s with
        emitted := s.emitted ++ [confirmation]
        confirmations := s.confirmations ++ [confirmation] }
  | .report message =>
      if isReport message then some { s with messages := s.messages ++ [message] } else none
  | .receive | .push => collect s action
  | .take | .group | .sendBatch => batch s action
  | .receiveMessage | .write => sendMessages s action
  | .read | .forward => splitReceiver s action
  | .hand =>
      match s.indexes with
      | indexes :: rest => some { s with indexes := rest, handed := s.handed ++ [indexes] }
      | [] => none

def initial : State where
  emitted := []
  confirmations := []
  collector := .receiving
  confirmedPackets := 0
  data := []
  batcher := .ticking
  messages := []
  messenger := .receiving
  stream := []
  splitter := .reading
  indexes := []
  reports := []
  handed := []

def machine : Machine State Action where
  init s := s = initial
  step := step

/-! ## Where the confirmations are -/

/-- The confirmations of a message. -/
def carried : Message → List ChunkKey
  | .confirmations indexes => ungroup indexes
  | _ => []

def CollectorPc.held : CollectorPc → List ChunkKey
  | .receiving => []
  | .locking confirmation => [confirmation]

def BatcherPc.held : BatcherPc → List ChunkKey
  | .ticking => []
  | .grouping confirmations => confirmations
  | .sending message => carried message

def MessengerPc.held : MessengerPc → List ChunkKey
  | .receiving => []
  | .writing message => carried message

def SplitterPc.held : SplitterPc → List ChunkKey
  | .reading => []
  | .forwarding message => carried message
  | .failed => []

/-- The places a confirmation can be in, from the writers on. -/
def places (s : State) : List (List ChunkKey) :=
  [s.confirmations, s.collector.held, s.data, s.batcher.held, s.messages.flatMap carried,
    s.messenger.held, s.stream.flatMap carried, s.splitter.held, s.indexes.flatMap ungroup,
    s.handed.flatMap ungroup]

variable {s s' : State} {action : Action}

theorem carried_eq_nil {message : Message}
    (other : ∀ indexes, message = .confirmations indexes → False) : carried message = [] := by
  unfold carried
  split
  next indexes => exact absurd rfl (other indexes)
  next => rfl

theorem carried_report {message : Message} (report : isReport message = true) :
    carried message = [] := by
  apply carried_eq_nil
  intro indexes same
  obtain rfl := same
  cases report

theorem count_places (k : ChunkKey) (s : State) : (places s).flatten.count k =
    s.confirmations.count k + s.collector.held.count k + s.data.count k +
      s.batcher.held.count k + (s.messages.flatMap carried).count k + s.messenger.held.count k +
        (s.stream.flatMap carried).count k + s.splitter.held.count k +
          (s.indexes.flatMap ungroup).count k + (s.handed.flatMap ungroup).count k := by
  simp only [places, List.flatten_cons, List.flatten_nil, List.append_nil, List.count_append,
    Nat.add_assoc]

/-! ## Steps of each task -/

/-- A step only moves confirmations. -/
def Moves (s s' : State) : Prop :=
  s'.emitted = s.emitted ∧ ∀ k, (places s').flatten.count k = (places s).flatten.count k

theorem moves_collect (next : collect s action = some s') : Moves s s' := by
  unfold collect at next
  split at next
  next =>
    split at next
    next confirmation rest collector confirmations =>
      cases next
      refine ⟨rfl, fun k => ?_⟩
      rw [count_places, count_places]
      simp only [collector, confirmations, CollectorPc.held, List.count_cons, List.count_nil]
      omega
    next => cases next
  next =>
    split at next
    next confirmation collector =>
      cases next
      refine ⟨rfl, fun k => ?_⟩
      rw [count_places, count_places]
      simp only [collector, CollectorPc.held, List.count_append, List.count_nil]
      omega
    next => cases next
  next => cases next

theorem moves_batch (next : batch s action = some s') : Moves s s' := by
  unfold batch at next
  split at next
  next =>
    split at next
    next batcher =>
      split at next
      next =>
        cases next
        exact ⟨rfl, fun _ => rfl⟩
      next =>
        cases next
        refine ⟨rfl, fun k => ?_⟩
        rw [count_places, count_places]
        simp only [batcher, BatcherPc.held, List.count_nil]
        omega
    next => cases next
  next =>
    split at next
    next confirmations batcher =>
      cases next
      refine ⟨rfl, fun k => ?_⟩
      have grouped := (@ungroup_group _ _ _ confirmations).count_eq k
      rw [count_places, count_places]
      simp only [batcher, BatcherPc.held, carried, grouped]
    next => cases next
  next =>
    split at next
    next message batcher =>
      cases next
      refine ⟨rfl, fun k => ?_⟩
      rw [count_places, count_places]
      simp only [batcher, BatcherPc.held, List.flatMap_append, List.flatMap_singleton,
        List.count_append, List.count_nil]
      omega
    next => cases next
  next => cases next

theorem moves_sendMessages (next : sendMessages s action = some s') : Moves s s' := by
  unfold sendMessages at next
  split at next
  next =>
    split at next
    next message rest messenger messages =>
      cases next
      refine ⟨rfl, fun k => ?_⟩
      rw [count_places, count_places]
      simp only [messenger, messages, MessengerPc.held, List.flatMap_cons, List.count_append,
        List.count_nil]
      omega
    next => cases next
  next =>
    split at next
    next message messenger =>
      cases next
      refine ⟨rfl, fun k => ?_⟩
      rw [count_places, count_places]
      simp only [messenger, MessengerPc.held, List.flatMap_append, List.flatMap_singleton,
        List.count_append, List.count_nil]
      omega
    next => cases next
  next => cases next

theorem moves_splitReceiver (next : splitReceiver s action = some s') : Moves s s' := by
  unfold splitReceiver at next
  split at next
  next =>
    split at next
    next message rest splitter stream =>
      cases next
      refine ⟨rfl, fun k => ?_⟩
      rw [count_places, count_places]
      simp only [splitter, stream, SplitterPc.held, List.flatMap_cons, List.count_append,
        List.count_nil]
      omega
    next => cases next
  next =>
    split at next
    next indexes splitter =>
      cases next
      refine ⟨rfl, fun k => ?_⟩
      rw [count_places, count_places]
      simp only [splitter, SplitterPc.held, carried, List.flatMap_append, List.flatMap_singleton,
        List.count_append, List.count_nil]
      omega
    next message other splitter =>
      have nothing : carried message = [] := carried_eq_nil other
      split at next
      all_goals
        cases next
        refine ⟨rfl, fun k => ?_⟩
        rw [count_places, count_places]
        simp only [splitter, SplitterPc.held, nothing]
    next => cases next
  next => cases next

/-! ## Runs -/

/-- Every confirmation is in one of the places, as often as it was emitted. -/
theorem conserved_step (conserved : ∀ k, s.emitted.count k = (places s).flatten.count k)
    (next : step s action = some s') (k : ChunkKey) :
    s'.emitted.count k = (places s').flatten.count k := by
  have moved : Moves s s' → s'.emitted.count k = (places s').flatten.count k := by
    intro holds
    obtain ⟨emitted, count⟩ := holds
    rw [emitted, count, conserved]
  cases action with
  | emit confirmation =>
      cases next
      have before := conserved k
      rw [count_places] at before ⊢
      simp only [List.count_append]
      omega
  | report message =>
      simp only [step] at next
      split at next
      next report =>
        cases next
        refine moved ⟨rfl, fun k => ?_⟩
        rw [count_places, count_places]
        simp only [List.flatMap_append, List.flatMap_singleton, carried_report report,
          List.append_nil]
      next => cases next
  | receive => exact moved (@moves_collect s s' .receive next)
  | push => exact moved (@moves_collect s s' .push next)
  | take => exact moved (@moves_batch s s' .take next)
  | group => exact moved (@moves_batch s s' .group next)
  | sendBatch => exact moved (@moves_batch s s' .sendBatch next)
  | receiveMessage => exact moved (@moves_sendMessages s s' .receiveMessage next)
  | write => exact moved (@moves_sendMessages s s' .write next)
  | read => exact moved (@moves_splitReceiver s s' .read next)
  | forward => exact moved (@moves_splitReceiver s s' .forward next)
  | hand =>
      simp only [step] at next
      split at next
      next indexes rest queued =>
        cases next
        refine moved ⟨rfl, fun k => ?_⟩
        rw [count_places, count_places]
        simp only [queued, List.flatMap_append, List.flatMap_cons, List.flatMap_nil,
          List.append_nil, List.count_append]
        omega
      next => cases next

/-- **No confirmation is lost or doubled.**  In every reachable state the confirmations that
were emitted are those in the places on their way, the last of which is
`receive_confirmations`; and a batch is grouped into a message that has every confirmation as
often as the batch, and the indexes of each id in the order of the batch. -/
theorem confirmations_conserved (reached : machine.Reachable s) :
    s.emitted.Perm (places s).flatten ∧
      ∀ confirmations : List ChunkKey, (ungroup (group confirmations)).Perm confirmations ∧
        ∀ id, valuesAt (group confirmations) id =
          (confirmations.filter fun confirmation => decide (confirmation.1 = id)).map Prod.snd := by
  refine ⟨List.perm_iff_count.mpr ?_, fun confirmations => ⟨ungroup_group, lookup_group⟩⟩
  induction reached with
  | init start =>
      subst start
      exact fun _ => rfl
  | step _ _ next conserved => exact conserved_step conserved next

/-- Two confirmations of one id and one of another are batched, grouped and handed on. -/
theorem confirmations_conserved_batch : ∃ s, machine.Reachable s ∧
    s.emitted = [(1, 1024), (2, 0), (1, 0)] ∧ s.confirmations = [(1, 0)] ∧
      s.handed.map (valuesAt · 1) = [[1024]] ∧ s.emitted.Perm (places s).flatten := by
  obtain ⟨s, reached, passed⟩ := Machine.reachable_of_test (M := machine) rfl
    [.emit (1, 1024), .emit (2, 0), .receive, .push, .receive, .push, .emit (1, 0), .take,
      .group, .sendBatch, .report (.end_ 2), .receiveMessage, .write, .receiveMessage, .write,
      .read, .forward, .hand, .read, .forward]
    (fun s => decide (s.emitted = [(1, 1024), (2, 0), (1, 0)] ∧ s.confirmations = [(1, 0)] ∧
      s.handed.map (valuesAt · 1) = [[1024]])) (by decide +kernel)
  obtain ⟨emitted, confirmations, handed⟩ := of_decide_eq_true passed
  exact ⟨s, reached, emitted, confirmations, handed, (confirmations_conserved reached).1⟩

end Confirmations

end Cccp
