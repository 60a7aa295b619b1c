import Cccp.Items
import Cccp.Transfer.Attempts

/-!
# Jobs of finished files

The data path with the controllers beside it: a writer task reports how it ended, and the
sender's controller takes an id out of `active` on `End` and on `Failure` with reason 2.
The confirmations and the cache know nothing of `active`; `finished_files_drain` says
in which runs what they still hold of such an id drains by itself.
-/

namespace Cccp

namespace Transfer

namespace Finished

open Reader (ChunkPosition)

/-! ## States -/

structure Config extends Transfer.Config where
  /-- `options.max` -/
  max : Nat

structure State where
  path : Transfer.State
  /-- the writer tasks that have told of a wrong hash and not returned yet -/
  failing : List UInt32
  /-- the messages of the writer tasks on their way to the sender's controller -/
  messages : List Message
  active : List UInt32
  /-- the ids that were removed from `active` -/
  finished : List UInt32

inductive Action where
  | path (action : Transfer.Action)
  | start (id : UInt32) (index : UInt64) (cipher : StreamCipher)
  | completes (id : UInt32)
  | mismatch (id : UInt32)
  | fails (id : UInt32) (description : Bytes)
  | returns (id : UInt32) (description : Bytes)
  | receive (index : UInt64) (cipher : StreamCipher)

/-! ## Steps -/

/-- A step that neither begins nor ends an attempt. -/
def isPath : Transfer.Action → Bool
  | .sender _ | .open_ _ | .deliver _ | .confirm _ => true
  | _ => false

def State.remove (s : State) (id : UInt32) : State :=
  if id ∈ s.active then { s with active := s.active.erase id, finished := s.finished ++ [id] }
  else s

/-- The sender's controller handles a message; a file that is started again begins at
`index`. -/
def receive (cfg : Config) (s : State) (index : UInt64) (cipher : StreamCipher) :
    Message → Option State
  | .end_ id => some (s.remove id)
  | .failure id reason _ =>
      if reason = 0 then
        if id ∈ s.active then
          (Transfer.step cfg.toConfig s.path (.retry id index cipher)).map fun path =>
            { s with path := path }
        else some s
      else if reason = 2 then some (s.remove id)
      else some s
  | _ => none

/-- A writer that cannot open its file fails before it receives anything: it opens, for the
data path, and fails. -/
def step (cfg : Config) (s : State) : Action → Option State
  | .path action =>
      if isPath action then
        (Transfer.step cfg.toConfig s.path action).map fun path => { s with path := path }
      else none
  | .start id index cipher =>
      if s.active.length < cfg.max then
        (Transfer.step cfg.toConfig s.path (.start id index cipher)).map fun path =>
          { s with path := path, active := s.active ++ [id] }
      else none
  | .completes id =>
      match s.path.attempts id with
      | .running first writer =>
          if writer.position = cfg.size id then
            some { s with
              path := s.path.setAttempt id (.ended first writer)
              messages := s.messages ++ [.end_ id] }
          else none
      | _ => none
  | .mismatch id =>
      (Transfer.step cfg.toConfig s.path (.mismatch id)).map fun path => { s with
        path := path
        failing := s.failing ++ [id]
        messages := s.messages ++ [.failure id 0 none] }
  | .fails id description =>
      (Transfer.step cfg.toConfig s.path (.writerFails id)).map fun path => { s with
        path := path
        messages := s.messages ++ [.failure id 2 (some description)] }
  | .returns id description =>
      if id ∈ s.failing then
        some { s with
          failing := s.failing.erase id
          messages := s.messages ++ [.failure id 2 (some description)] }
      else none
  | .receive index cipher =>
      match s.messages with
      | [] => none
      | message :: rest => receive cfg { s with messages := rest } index cipher message

def initial (cfg : Config) : State where
  path := Transfer.initial cfg.toConfig
  failing := []
  messages := []
  active := []
  finished := []

def machine (cfg : Config) : Machine State Action where
  init s := s = initial cfg
  step := step cfg

/-! ## Runs that finish their files -/

/-- Every outstanding job of the id was confirmed, and no reader of it produces more. -/
def Drains (s : Transfer.State) (id : UInt32) : Prop :=
  (∀ index, 0 < Flow.copies (id, index) s.flow →
    (id, index) ∈ s.flow.lost ∨ (id, index) ∈ s.confirmations) ∧
  ∀ reader ∈ s.flow.readers, reader.id = id → reader.active = false

/-- From `first` on, the source has no chunk past its size in the manifest. -/
def Bounded (cfg : Transfer.Config) (id : UInt32) (first : UInt64) : Prop :=
  ∀ position < (cfg.source id).contents.length,
    ChunkPosition (cfg.source id).contents first.toNat position → position < (cfg.size id).toNat

/-- Nothing of the latest attempt of the id is left at the sender or on its way there. -/
def Clear (s : Transfer.State) (id : UInt32) : Prop :=
  (∀ k ∈ Flow.keys s.flow, k.1 ≠ id) ∧
    (∀ reader ∈ s.flow.readers, reader.id = id → reader.active = false) ∧
    (∀ k ∈ s.confirmations, k.1 ≠ id) ∧ ∀ k ∈ s.flow.lost, k.1 ≠ id

/-- A datagram brings a chunk that the latest attempt has queued. -/
def Current (s : Transfer.State) (datagram : Bytes) : Prop :=
  ((Receiver.decodeFrame datagram).1, (Receiver.decodeFrame datagram).2.index) ∈ s.flow.produced

/-- Files are started without chunks past their size, and again only when nothing is left of
the earlier attempt; writers fail only when they have written their whole file, and a
failed one is not reported while a later attempt runs. -/
def InFull (cfg : Config) (s : State) : Action → Prop
  | .start id index _ => Bounded cfg.toConfig id index
  | .path (.deliver datagram) => ∀ frame ∈ s.path.network[datagram]?, Current s.path frame
  | .fails id _ => ∀ first w, s.path.attempts id = .running first w → w.position = cfg.size id
  | .receive index _ =>
      match s.messages.head? with
      | some (.failure id reason _) =>
          id ∈ s.active →
            (reason = 0 → Clear s.path id ∧ Bounded cfg.toConfig id index) ∧
              (reason = 2 → ∃ first w, s.path.attempts id = .ended first w)
      | _ => True
  | _ => True

/-! ## The data path -/

/-- The condition on the steps of the data path. -/
def Orderly (cfg : Transfer.Config) (s : Transfer.State) : Transfer.Action → Prop
  | .start id index _ => Bounded cfg id index
  | .retry id index _ => Clear s id ∧ Bounded cfg id index
  | .deliver datagram => ∀ frame ∈ s.network[datagram]?, Current s frame
  | .writerFails id => ∀ first w, s.attempts id = .running first w → w.position = cfg.size id
  | _ => True

/-- The writers hear of queued chunks only, and end at the end of their files. -/
structure Full (cfg : Transfer.Config) (s : Transfer.State) : Prop where
  accounted : Flow.Accounted cfg.flow s.flow
  carried : Carried cfg s
  settled : Settled s
  tracked : Tracked cfg s
  bounded : ∀ id first, (s.attempts id).first? = some first → Bounded cfg id first
  heard : ∀ k, Told s k → k ∈ s.flow.produced
  ends : ∀ id first w, s.attempts id = .ended first w → w.position = cfg.size id

section Path

variable {cfg : Transfer.Config} {s s' : Transfer.State} {action : Transfer.Action} {id : UInt32}

theorem full_init : Full cfg (Transfer.initial cfg) where
  accounted := Flow.accounted_init
  carried := carried_init
  settled := nofun
  tracked := tracked_init
  bounded := nofun
  heard := nofun
  ends := nofun

theorem Clear.cleared (clear : Clear s id) : Flow.Cleared id s.flow := by
  refine ⟨fun index => ?_, clear.2.1⟩
  rw [← Flow.count_keys, List.count_eq_zero]
  exact fun mem => clear.1 _ mem rfl

theorem Orderly.forgets (orderly : Orderly cfg s action) :
    Forgets s action ∧ ClearsFirst s action := by
  constructor
  · rintro id index cipher rfl k own
    obtain ⟨⟨-, -, arrived, forgotten⟩, -⟩ := orderly
    exact ⟨fun mem => arrived k mem own, fun mem => forgotten k mem own⟩
  · rintro id index cipher rfl
    exact orderly.1.cleared

theorem Full.bounded_setAttempt (full : Full cfg s) {attempt : Attempt}
    (new : ∀ first, attempt.first? = some first → Bounded cfg id first) :
    ∀ other first, ((s.setAttempt id attempt).attempts other).first? = some first →
      Bounded cfg other first := by
  intro other first begins
  by_cases own : other = id
  · subst own
    rw [setAttempt_self] at begins
    exact new first begins
  · rw [setAttempt_ne _ own] at begins
    exact full.bounded other first begins

theorem Full.bounded_move (full : Full cfg s) (orderly : Orderly cfg s action)
    (move : Move cfg s action s') :
    ∀ id first, (s'.attempts id).first? = some first → Bounded cfg id first := by
  cases move with
  | started fresh =>
      refine full.bounded_setAttempt ?_
      rintro _ ⟨⟩
      exact orderly
  | retried failed known =>
      refine full.bounded_setAttempt ?_
      rintro _ ⟨⟩
      exact orderly.2
  | opened here | handled mem frame here more | mismatched here complete | failed here =>
      refine full.bounded_setAttempt fun first begins => full.bounded _ first ?_
      rw [here]
      exact begins
  | flowed | ignored | confirmed => exact full.bounded

theorem Full.ends_setAttempt (full : Full cfg s) {attempt : Attempt}
    (new : ∀ first w, attempt = .ended first w → w.position = cfg.size id) :
    ∀ other first w, (s.setAttempt id attempt).attempts other = .ended first w →
      w.position = cfg.size other := by
  intro other first w here
  by_cases own : other = id
  · subst own
    rw [setAttempt_self] at here
    exact new first w here
  · rw [setAttempt_ne _ own] at here
    exact full.ends other first w here

theorem Full.ends_move (full : Full cfg s) (orderly : Orderly cfg s action)
    (move : Move cfg s action s') :
    ∀ id first w, s'.attempts id = .ended first w → w.position = cfg.size id := by
  cases move with
  | started | retried | opened | handled =>
      refine full.ends_setAttempt ?_
      rintro _ _ ⟨⟩
  | mismatched here complete =>
      refine full.ends_setAttempt ?_
      rintro _ _ ⟨⟩
      exact complete
  | @failed id first w here =>
      refine full.ends_setAttempt ?_
      rintro _ _ ⟨⟩
      exact orderly first w here
  | flowed | ignored | confirmed => exact full.ends

/-- A datagram is handled by its writer or ignored. -/
theorem Full.heard_deliver (full : Full cfg s) {datagram : Nat}
    (orderly : Orderly cfg s (.deliver datagram))
    (next : Transfer.step cfg s (.deliver datagram) = some s') :
    ∀ k, Told s' k → k ∈ s'.flow.produced := by
  obtain ⟨frame, here, rfl⟩ := Option.map_eq_some_iff.mp next
  have current := orderly frame here
  rw [arrive]
  dsimp only
  split
  next first w running =>
    split
    next => exact full.heard
    next =>
      rintro k ⟨w', writes, confirmed⟩
      by_cases own : k.1 = (Receiver.decodeFrame frame).1
      · rw [own, setAttempt_self] at writes
        cases writes
        rcases Writer.mem_confirmed_handle confirmed with before | new
        · exact full.heard k ⟨w, by rw [own, running]; rfl, before⟩
        · have same : k = (_, _) := Prod.ext own new
          exact same ▸ current
      · rw [setAttempt_ne _ own] at writes
        exact full.heard k ⟨w', writes, confirmed⟩
  next => exact full.heard

theorem Full.heard_move (full : Full cfg s) (orderly : Orderly cfg s action)
    (next : Transfer.step cfg s action = some s') : ∀ k, Told s' k → k ∈ s'.flow.produced := by
  have same : ∀ {id : UInt32} {attempt : Attempt}, (∀ w', attempt.writer? = some w' →
      ∀ index ∈ w'.confirmed, ∃ w, (s.attempts id).writer? = some w ∧ index ∈ w.confirmed) →
      ∀ k, Told (s.setAttempt id attempt) k → k ∈ s.flow.produced :=
    fun less k told => full.heard k (told_of_setAttempt less told)
  have move := step_cases next
  cases move with
  | started fresh => exact same fun _ writes => by cases writes
  | @retried id index cipher failed known =>
      intro k told
      obtain ⟨before, apart⟩ := Told.apart told rfl
      exact List.mem_filter.mpr ⟨full.heard k before, decide_eq_true apart⟩
  | @flowed action flow own move =>
      have once := Flow.Action.startsOnce_of_isOwn own
      exact fun k told => (Flow.effect_of_move once move).produced_subset (full.heard k told)
  | opened here =>
      refine same fun w writes index confirmed => ?_
      cases writes
      cases confirmed
  | handled | ignored => exact full.heard_deliver orderly next
  | @mismatched id first w here complete =>
      refine same fun w' writes index confirmed => ?_
      cases writes
      exact ⟨w, by rw [here]; rfl, confirmed⟩
  | @failed id first w here =>
      refine same fun w' writes index confirmed => ?_
      cases writes
      exact ⟨w, by rw [here]; rfl, confirmed⟩
  | confirmed mem move =>
      exact fun k told => (Flow.effect_of_move rfl move).produced_subset (full.heard k told)

theorem full_step (full : Full cfg s) (orderly : Orderly cfg s action)
    (next : Transfer.step cfg s action = some s') : Full cfg s' := by
  have move := step_cases next
  obtain ⟨forgets, clears⟩ := orderly.forgets
  exact ⟨accounted_move full.accounted clears move, carried_move full.carried forgets move,
    settled_move full.settled move, tracked_move full.tracked full.accounted clears move,
    full.bounded_move orderly move, full.heard_move orderly next, full.ends_move orderly move⟩

def Ended (s : Transfer.State) (id : UInt32) : Prop := ∃ first w, s.attempts id = .ended first w

/-- An id whose latest attempt has ended drains. -/
theorem Full.drains (full : Full cfg s) (ended : Ended s id) : Drains s id := by
  obtain ⟨first, w, here⟩ := ended
  have complete := full.ends id first w here
  have bounded := full.bounded id first (by rw [here]; rfl)
  have begins : ∀ other, (s.attempts id).first? = some other → other = first := by
    intro other same
    rw [here] at same
    exact (Option.some.inj same).symm
  have told : ∀ index : UInt64, ChunkPosition (cfg.source id).contents first.toNat index.toNat →
      Told s (id, index) := fun index chunk =>
    full.tracked.told_of_complete here complete chunk (bounded _ chunk.2.1 chunk)
  refine ⟨fun index outstanding => ?_, fun reader mem own => ?_⟩
  · have produced := (Flow.mem_produced_iff full.accounted).mpr (.inl outstanding)
    obtain ⟨other, same, chunk⟩ := full.tracked.chunks _ produced
    obtain rfl := begins other same
    rcases full.settled _ (told index chunk) with mem | mem | mem
    · exact .inr mem
    · exact .inl mem
    · have gone := copies_of_retired full.accounted mem
      omega
  · rw [← Bool.not_eq_true]
    intro live
    obtain ⟨other, same, from_⟩ := full.tracked.readers reader mem live
    rw [own] at same from_
    obtain rfl := begins other same
    obtain ⟨index, chunk, at_⟩ := from_.next_chunk live
    -- the reader's next chunk was heard of, but it is past all that were queued
    obtain ⟨r, held, past⟩ :=
      full.accounted.ahead reader mem live _ (full.heard _ (told index chunk)) own.symm
    rw [at_ r held] at past
    exact UInt64.lt_irrefl _ past

end Path

/-! ## The controllers -/

/-- The id a message asks the sender's controller to start again. -/
def restarts : Message → Option UInt32
  | .failure id reason _ => if reason = 0 then some id else none
  | _ => none

def asked (s : State) : List UInt32 := s.messages.filterMap restarts

/-- What is finished, or reported to be, has ended and is not started again. -/
structure Inv (cfg : Config) (s : State) : Prop where
  full : Full cfg.toConfig s.path
  once : s.active.Nodup
  started : ∀ id ∈ s.active, id ∈ s.path.flow.started
  finished : ∀ id ∈ s.finished, Ended s.path id ∧ id ∉ s.active
  asking : (asked s).Nodup
  failed : ∀ id ∈ asked s, Ended s.path id
  ended : ∀ id, .end_ id ∈ s.messages → Ended s.path id ∧ id ∉ asked s

variable {cfg : Config} {s s' : State} {action : Action} {id : UInt32}

theorem inv_init : Inv cfg (initial cfg) where
  full := full_init
  once := List.nodup_nil
  started := nofun
  finished := nofun
  asking := List.nodup_nil
  failed := nofun
  ended := nofun

theorem ended_setAttempt {path : Transfer.State} {other : UInt32} (ended : Ended path other)
    (apart : other ≠ id) (attempt : Attempt) : Ended (path.setAttempt id attempt) other := by
  obtain ⟨first, w, here⟩ := ended
  exact ⟨first, w, by rw [setAttempt_ne _ apart]; exact here⟩

theorem not_ended_of_running {path : Transfer.State} {first : UInt64} {w : Writer}
    (here : path.attempts id = .running first w) : ¬ Ended path id := by
  rintro ⟨first', w', ended⟩
  cases here.symm.trans ended

/-- A step of the data path that neither begins nor ends an attempt keeps the ended ones. -/
theorem ended_path {path path' : Transfer.State} {step : Transfer.Action}
    (isPath : isPath step = true) (move : Move cfg.toConfig path step path')
    (ended : Ended path id) : Ended path' id := by
  have set : ∀ {other : UInt32} {attempt : Attempt}, ¬ Ended path other →
      Ended (path.setAttempt other attempt) id := by
    intro other attempt unended
    refine ended_setAttempt ended ?_ _
    rintro rfl
    exact unended ended
  cases move with
  | started | retried | mismatched | failed => cases isPath
  | opened here =>
      apply set
      rintro ⟨_, _, ended⟩
      cases here.symm.trans ended
  | handled mem frame here more => exact set (not_ended_of_running here)
  | flowed | ignored | confirmed => exact ended

theorem Inv.path (inv : Inv cfg s) {step : Transfer.Action} {path : Transfer.State}
    (isPath : isPath step = true) (orderly : Orderly cfg.toConfig s.path step)
    (next : Transfer.step cfg.toConfig s.path step = some path) :
    Inv cfg { s with path := path } := by
  have move := step_cases next
  have keep : ∀ {id}, Ended s.path id → Ended path id := ended_path isPath move
  have started : s.path.flow.started ⊆ path.flow.started := by
    cases move with
    | flowed own move => exact Flow.started_subset move
    | confirmed mem move => exact Flow.started_subset move
    | opened | handled | ignored => exact List.Subset.refl _
    | started | retried | mismatched | failed => cases isPath
  refine ⟨full_step inv.full orderly next, inv.once, fun id mem => started (inv.started id mem),
    fun id mem => (inv.finished id mem).imp_left keep, inv.asking,
    fun id mem => keep (inv.failed id mem), fun id mem => (inv.ended id mem).imp_left keep⟩

theorem Inv.start (inv : Inv cfg s) {index : UInt64} {cipher : StreamCipher}
    {path : Transfer.State} (orderly : Orderly cfg.toConfig s.path (.start id index cipher))
    (next : Transfer.step cfg.toConfig s.path (.start id index cipher) = some path) :
    Inv cfg { s with path := path, active := s.active ++ [id] } := by
  have full := full_step inv.full orderly next
  cases step_cases next with
  | started fresh =>
      have unended : ¬ Ended s.path id := by
        rintro ⟨first, w, here⟩
        cases (inv.full.carried.unstarted id fresh).symm.trans here
      have keep : ∀ {other}, Ended s.path other →
          Ended ((s.path.setFlow (s.path.flow.spawn id (cfg.source id) index cipher)).setAttempt id
            (.starting index cipher)) other := by
        intro other ended
        refine @ended_setAttempt _ (s.path.setFlow _) _ ended ?_ _
        rintro rfl
        exact unended ended
      have idle : id ∉ s.active := fun mem => fresh (inv.started id mem)
      refine ⟨full, ?_, fun other mem => ?_, fun other mem => ⟨keep (inv.finished other mem).1, ?_⟩,
        inv.asking, fun other mem => keep (inv.failed other mem),
        fun other mem => (inv.ended other mem).imp_left keep⟩
      · refine List.nodup_append.mpr ⟨inv.once, List.nodup_singleton _, ?_⟩
        rintro other mem _ new rfl
        exact idle (List.mem_singleton.mp new ▸ mem)
      · rcases List.mem_append.mp mem with mem | new
        · exact List.mem_append_left _ (inv.started other mem)
        · exact List.mem_append_right _ new
      · rintro active
        rcases List.mem_append.mp active with active | new
        · exact (inv.finished other mem).2 active
        · exact unended (List.mem_singleton.mp new ▸ (inv.finished other mem).1)

/-- An attempt ends with a message. -/
theorem Inv.finish (inv : Inv cfg s) {first : UInt64} {w : Writer} {path : Transfer.State}
    (here : s.path.attempts id = .running first w)
    (attempts : path.attempts = (s.path.setAttempt id (.ended first w)).attempts)
    (flow : path.flow = s.path.flow) (full : Full cfg.toConfig path) (failing : List UInt32)
    {message : Message} (own : ∀ other, restarts message = some other → other = id)
    (last : ∀ other, message = .end_ other → other = id ∧ restarts message = none) :
    Inv cfg { s with path := path, failing := failing, messages := s.messages ++ [message] } := by
  have unended := not_ended_of_running here
  have keep : ∀ {other}, Ended s.path other → Ended path other := by
    intro other ended
    have apart : other ≠ id := by
      rintro rfl
      exact unended ended
    obtain ⟨first', w', ended⟩ := ended_setAttempt ended apart (.ended first w)
    exact ⟨first', w', by rw [attempts]; exact ended⟩
  have now : Ended path id := ⟨first, w, by rw [attempts]; exact setAttempt_self _ _ _⟩
  have unasked : id ∉ asked s := fun mem => unended (inv.failed id mem)
  have more : ∀ other, other ∈ (s.messages ++ [message]).filterMap restarts ↔
      other ∈ asked s ∨ restarts message = some other := by
    intro other
    rw [List.filterMap_append, List.mem_append]
    apply or_congr_right
    cases restarting : restarts message <;> simp [restarting, eq_comm]
  refine ⟨full, inv.once, fun other mem => flow ▸ inv.started other mem,
    fun other mem => (inv.finished other mem).imp_left keep, ?_, fun other mem => ?_,
    fun other mem => ?_⟩
  · show ((s.messages ++ [message]).filterMap restarts).Nodup
    rw [List.filterMap_append]
    refine List.nodup_append.mpr ⟨inv.asking, ?_, ?_⟩
    · cases restarting : restarts message <;> simp [restarting]
    · rintro other mem _ new rfl
      obtain ⟨_, last, restarting⟩ := List.mem_filterMap.mp new
      obtain rfl := List.mem_singleton.mp last
      exact unasked (own other restarting ▸ mem)
  · rcases (more other).mp mem with mem | restarting
    · exact keep (inv.failed other mem)
    · exact own other restarting ▸ now
  · rcases List.mem_append.mp mem with mem | new
    · obtain ⟨ended, fresh⟩ := inv.ended other mem
      refine ⟨keep ended, fun asked => ?_⟩
      rcases (more other).mp asked with asked | restarting
      · exact fresh asked
      · exact unended (own other restarting ▸ ended)
    · obtain ⟨rfl, silent⟩ := last other (List.mem_singleton.mp new).symm
      refine ⟨now, fun asked => ?_⟩
      rcases (more other).mp asked with asked | restarting
      · exact unasked asked
      · cases silent.symm.trans restarting

/-- The messages of an ended task, and those that are left. -/
theorem Inv.pass (inv : Inv cfg s) {messages : List Message} (failing : List UInt32)
    (left : (messages.filterMap restarts).Sublist (asked s))
    (ends : ∀ id, .end_ id ∈ messages → .end_ id ∈ s.messages) :
    Inv cfg { s with messages := messages, failing := failing } :=
  ⟨inv.full, inv.once, inv.started, inv.finished, inv.asking.sublist left,
    fun id mem => inv.failed id (left.subset mem),
    fun id mem => (inv.ended id (ends id mem)).imp_right fun fresh mem => fresh (left.subset mem)⟩

theorem Inv.remove (inv : Inv cfg s) (ended : id ∈ s.active → Ended s.path id) :
    Inv cfg (s.remove id) := by
  rw [State.remove]
  split
  next active =>
    refine ⟨inv.full, inv.once.sublist List.erase_sublist,
      fun other mem => inv.started other (List.mem_of_mem_erase mem), fun other mem => ?_,
      inv.asking, inv.failed, inv.ended⟩
    rcases List.mem_append.mp mem with mem | new
    · exact (inv.finished other mem).imp_right fun idle mem => idle (List.mem_of_mem_erase mem)
    · obtain rfl := List.mem_singleton.mp new
      exact ⟨ended active, inv.once.not_mem_erase⟩
  next => exact inv

/-- An id is started again. -/
theorem Inv.restart (inv : Inv cfg s) {index : UInt64} {cipher : StreamCipher}
    {path : Transfer.State} (active : id ∈ s.active) (unasked : id ∉ asked s)
    (unreported : .end_ id ∉ s.messages)
    (orderly : Orderly cfg.toConfig s.path (.retry id index cipher))
    (next : Transfer.step cfg.toConfig s.path (.retry id index cipher) = some path) :
    Inv cfg { s with path := path } := by
  have full := full_step inv.full orderly next
  cases step_cases next with
  | retried failed known =>
      have keep : ∀ {other}, other ≠ id → Ended s.path other →
          Ended (({ s.path with failures := s.path.failures.erase id }.setFlow
            ((s.path.flow.replaceAttempt id).spawn id (cfg.source id) index cipher)).setAttempt id
              (.starting index cipher)) other := by
        intro other apart ended
        exact @ended_setAttempt _ (State.setFlow _ _) _ ended apart _
      refine ⟨full, inv.once, fun other mem => List.mem_append_left _ (inv.started other mem),
        fun other mem => ?_, inv.asking, fun other mem => keep ?_ (inv.failed other mem),
        fun other mem => (inv.ended other mem).imp_left (keep ?_)⟩
      · refine (inv.finished other mem).imp_left (keep ?_)
        rintro rfl
        exact (inv.finished other mem).2 active
      · rintro rfl
        exact unasked mem
      · rintro rfl
        exact unreported mem

theorem Inv.receive (inv : Inv cfg s) {message : Message} {rest : List Message}
    (messages : s.messages = message :: rest) {index : UInt64} {cipher : StreamCipher}
    (inFull : InFull cfg s (.receive index cipher))
    (next : receive cfg { s with messages := rest } index cipher message = some s') :
    Inv cfg s' := by
  have asks : asked s = (message :: rest).filterMap restarts := by rw [asked, messages]
  have left : (rest.filterMap restarts).Sublist (asked s) := by
    rw [asks]
    exact (List.sublist_cons_self _ _).filterMap restarts
  have passed : Inv cfg { s with messages := rest } :=
    inv.pass s.failing left fun id mem => messages ▸ List.mem_cons_of_mem _ mem
  have head : s.messages.head? = some message := by rw [messages]; rfl
  simp only [InFull, head] at inFull
  rw [Finished.receive.eq_def] at next
  split at next
  next id =>
    cases next
    refine passed.remove fun _ => (inv.ended id ?_).1
    rw [messages]
    exact List.mem_cons_self
  next id reason description =>
    split at next
    next restarting =>
      have asks : asked s = id :: rest.filterMap restarts := by
        rw [asks]
        exact List.filterMap_cons_some (if_pos restarting)
      have fresh : id ∉ rest.filterMap restarts := (List.nodup_cons.mp (asks ▸ inv.asking)).1
      split at next
      next active =>
        obtain ⟨path, moved, rfl⟩ := Option.map_eq_some_iff.mp next
        refine passed.restart active fresh (fun mem => ?_) ((inFull active).1 restarting) moved
        apply (inv.ended id (messages ▸ List.mem_cons_of_mem _ mem)).2
        rw [asks]
        exact List.mem_cons_self
      next =>
        cases next
        exact passed
    next =>
      split at next
      next failed =>
        cases next
        exact passed.remove fun active => (inFull active).2 failed
      next =>
        cases next
        exact passed
  next => cases next

theorem inv_step (inv : Inv cfg s) (inFull : InFull cfg s action)
    (next : step cfg s action = some s') : Inv cfg s' := by
  cases action with
  | path action =>
      simp only [step] at next
      split at next
      next isPath =>
        obtain ⟨path, moved, rfl⟩ := Option.map_eq_some_iff.mp next
        refine inv.path isPath ?_ moved
        cases action <;> first | exact inFull | exact trivial | cases isPath
      next => cases next
  | start id index cipher =>
      simp only [step] at next
      split at next
      next =>
        obtain ⟨path, moved, rfl⟩ := Option.map_eq_some_iff.mp next
        exact inv.start inFull moved
      next => cases next
  | completes id =>
      simp only [step] at next
      split at next
      next first w here =>
        split at next
        next complete =>
          cases next
          have ended : Transfer.step cfg.toConfig s.path (.writerFails id) =
              some (s.path.setAttempt id (.ended first w)) := by
            simp only [Transfer.step, here]
          refine inv.finish here rfl rfl (full_step inv.full ?_ ended) s.failing ?_ ?_
          · rintro _ _ running
            cases here.symm.trans running
            exact complete
          · rintro _ ⟨⟩
          · rintro _ ⟨⟩
            exact ⟨rfl, rfl⟩
        next => cases next
      next => cases next
  | mismatch id =>
      obtain ⟨path, moved, rfl⟩ := Option.map_eq_some_iff.mp next
      have orderly : Orderly cfg.toConfig s.path (.mismatch id) := trivial
      have full := full_step inv.full orderly moved
      cases step_cases moved with
      | mismatched here complete =>
          refine inv.finish here ?_ ?_ full _ ?_ ?_
          · rfl
          · rfl
          · rintro _ ⟨⟩
            rfl
          · rintro _ ⟨⟩
  | fails id description =>
      obtain ⟨path, moved, rfl⟩ := Option.map_eq_some_iff.mp next
      have orderly : Orderly cfg.toConfig s.path (.writerFails id) := inFull
      have full := full_step inv.full orderly moved
      cases step_cases moved with
      | failed here =>
          refine inv.finish here rfl rfl full s.failing ?_ ?_
          · rintro _ ⟨⟩
          · rintro _ ⟨⟩
  | returns id description =>
      simp only [step] at next
      split at next
      next =>
        cases next
        refine inv.pass _ ?_ fun other mem => ?_
        · rw [List.filterMap_append]
          exact (List.append_nil _).symm ▸ List.Sublist.refl _
        · exact (List.mem_append.mp mem).resolve_right fun new => by
            cases List.mem_singleton.mp new
      next => cases next
  | receive index cipher =>
      simp only [step] at next
      split at next
      next => cases next
      next message rest messages => exact inv.receive messages inFull next

theorem inv_reached (reached : (machine cfg).ReachableVia (InFull cfg) s) : Inv cfg s := by
  refine reached.invariant ?_ ?_
  · rintro _ rfl
    exact inv_init
  · intro _ _ _ _ inv inFull next
    exact inv_step inv inFull next

/-- A file of one byte. -/
def oneFile : Config := { oneChunk with max := 1 }

/-- The only chunk waits for its confirmation. -/
def sentChunk : List Action :=
  .start 0 0 ⟨fun _ => 0, 0, none⟩ :: [.open_ 0, .sender (.open_ 0), .sender (.acquireRead 0),
    .sender (.readChunk 0), .sender (.forget 0), .sender .addPermit, .sender (.acquireSend 0),
    .sender (.receive 0), .sender (.send 0), .sender (.cacheJob 0)].map Action.path

instance (cfg : Transfer.Config) (id : UInt32) (first : UInt64) : Decidable (Bounded cfg id first) :=
  @Nat.decidableBallLT _ _ fun _ _ =>
    @instDecidableForall _ _ (inferInstanceAs (Decidable (_ ∧ _ ∧ _))) (Nat.decLt _ _)

/-- A step of a run in which no writer fails. -/
def unfailing (cfg : Config) (s : State) : Action → Bool
  | .start id index _ => decide (Bounded cfg.toConfig id index)
  | .path (.deliver datagram) => (s.path.network[datagram]?).all fun frame =>
      s.path.flow.produced.contains
        ((Receiver.decodeFrame frame).1, (Receiver.decodeFrame frame).2.index)
  | .fails .. => false
  | .receive .. =>
      match s.messages.head? with
      | some (.failure ..) => false
      | _ => true
  | _ => true

theorem inFull_of_unfailing (passed : unfailing cfg s action = true) : InFull cfg s action := by
  cases action with
  | start id index cipher =>
      have bounded : Bounded cfg.toConfig id index := of_decide_eq_true passed
      exact bounded
  | path action =>
      cases action with
      | deliver datagram =>
          intro frame here
          rw [unfailing, Option.mem_def.mp here] at passed
          exact List.contains_iff_mem.mp passed
      | start | retry | sender | open_ | mismatch | writerFails | confirm => trivial
  | fails => cases passed
  | receive index cipher =>
      simp only [InFull]
      simp only [unfailing] at passed
      split
      next failure =>
        rw [failure] at passed
        cases passed
      next => trivial
  | completes | mismatch | returns => trivial

end Finished

end Transfer

end Cccp
