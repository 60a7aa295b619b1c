import Cccp.Control.Completion
import Cccp.Lib.Progress

/-!
# The schedule of the sender's controller

`sender::controller` on its own: its two loops, with any messages from the receiver and
any replies to its `Start` messages, in any order.

`controller_scheduled` says that every id moves from pending over active to retired, in
ascending order and at most `max` at a time, that the loop that fills `active` goes on to
its end without an overflow of its counter, and that `Done` is written when all ids are retired.
-/

namespace Cccp

namespace Control

namespace Schedule

/-- The controller in its surroundings.  `started` has the ids the inner loop has started,
in their order, and `retired` those that have left `active`. -/
structure Run where
  state : State Fifo
  started : List UInt32
  retired : List UInt32

namespace Run

variable (r : Run)

abbrev sender : Sender := r.state.sender

/-- A step of the controller, recorded. -/
def record (s : State Fifo) : Run where
  state := s
  started := match r.sender.pc, s.sender.pc with
    | .filling, .starting id _ => r.started ++ [id]
    | _, _ => r.started
  retired := r.retired ++ r.sender.active.keys.filter fun id => decide (id ∉ s.sender.active)

end Run

inductive Event where
  | sender
  | others (shared : Shared) (replies : List Packet)

/-- The controller as `sender::main` spawns it, for the files that are not completed.
What the controller writes stays in `toReceiver`. -/
def machine (cfg : Config) (files : HashMap UInt32 FileDetail) : Machine Run Event where
  init r := r.sender.pc = .filling ∧ r.sender.files = files ∧ r.sender.active = ∅ ∧
    r.sender.nextId = 0 ∧ r.sender.alive = true ∧ r.started = [] ∧ r.retired = []
  step r
    | .sender => if r.sender.alive then (senderStep cfg fifo r.state).map r.record else none
    | .others shared replies =>
        some { r with state := { r.state with
          shared := shared
          chan := { r.state.chan with toSender := replies } } }

/-- The heads of the two loops, and the end. -/
def AtHead : SenderPc → Prop
  | .filling | .waiting | .finishing => True
  | _ => False

/-- Inside the loop that fills `active`. -/
def InFill : SenderPc → Prop
  | .filling | .starting .. => True
  | _ => False

/-- What is left to do for the loop that fills `active`. -/
def fillRank (sender : Sender) : Nat :=
  match sender.pc with
  | .starting .. => 2 * (2 ^ 32 - sender.nextId.toNat) - 1
  | _ => 2 * (2 ^ 32 - sender.nextId.toNat)

/-- The controller writes a packet. -/
def Writes (s s' : State Fifo) (packet : Packet) : Prop :=
  s'.chan.toReceiver = s.chan.toReceiver ++ [packet]

/-- What holds of the schedule in a state. -/
structure Scheduled (cfg : Config) (files : HashMap UInt32 FileDetail) (r : Run) : Prop where
  /-- every id of the manifest is pending, active or retired -/
  placed : AtHead r.sender.pc → ∀ id ∈ files,
    (id ∈ r.sender.files ∧ id ∉ r.sender.active ∧ id ∉ r.retired) ∨
      (id ∉ r.sender.files ∧ id ∈ r.sender.active ∧ id ∉ r.retired) ∨
      (id ∉ r.sender.files ∧ id ∉ r.sender.active ∧ id ∈ r.retired)
  bounded : r.sender.active.entries.length ≤ cfg.max
  ahead : ∀ id ∈ r.sender.files, r.sender.nextId ≤ id

/-- What holds of a step of the controller. -/
structure Orderly (cfg : Config) (files : HashMap UInt32 FileDetail) (r : Run) (s' : State Fifo) :
    Prop where
  /-- the inner loop ends -/
  fills : InFill r.sender.pc → InFill s'.sender.pc →
    fillRank s'.sender < fillRank r.sender
  /-- its counter does not overflow -/
  counts : s'.sender.nextId.toNat = r.sender.nextId.toNat ∨
    s'.sender.nextId.toNat = r.sender.nextId.toNat + 1
  /-- it leaves `active` full or nothing pending -/
  full : r.sender.pc = .filling → s'.sender.pc = .waiting →
    s'.sender.active.entries.length = cfg.max ∨ s'.sender.files.entries = []
  /-- it starts pending ids, once and in ascending order -/
  starts : r.sender.pc = .filling → ∀ id, Writes r.state s' (.message (.start id)) →
    id ∈ r.sender.files ∧ ∀ other ∈ r.started, other < id
  /-- other ids are started again while they are active -/
  restarts : r.sender.pc ≠ .filling → ∀ id, Writes r.state s' (.message (.start id)) →
    id ∈ r.sender.active
  finishes : Writes r.state s' (.message (.done 2)) → ∀ id ∈ files, id ∈ r.retired

/-- The receiver answers the `Start` messages of the inner loop, and the controller steps. -/
def Answers (index : UInt32 → UInt64) (r : Run) : Event → Prop
  | .sender => InFill r.sender.pc
  | .others shared replies => shared = r.state.shared ∧
      ∃ id details, r.sender.pc = .starting id details ∧ replies = [.startIndex (index id)]

/-- The ciphers for what is pending or being started can be made. -/
structure Makes (cfg : Config) (sender : Sender) : Prop where
  pending : ∀ id details, sender.files.lookup id = some details →
    ∃ cipher, details.crypto.makeCipher cfg.crates.cipher = .made cipher
  starting : ∀ id details, sender.pc = .starting id details →
    ∃ cipher, details.crypto.makeCipher cfg.crates.cipher = .made cipher

/-- The inner loop has ended, with `active` full or nothing pending. -/
def Filled (cfg : Config) (r : Run) : Prop :=
  r.sender.pc = .waiting ∧
    (r.sender.active.entries.length = cfg.max ∨ r.sender.files.entries = [])

/-- What the inner loop does in a state: it waits for nothing but the answer to a `Start`, and
whatever the answers are, it comes to its end, unless a cipher cannot be made and the controller
returns the error. -/
structure Filling (cfg : Config) (files : HashMap UInt32 FileDetail) (r : Run) : Prop where
  goesOn : r.sender.pc = .filling → ∃ r', (machine cfg files).step r .sender = some r'
  answered : ∀ id details index rest, r.sender.pc = .starting id details →
    r.state.chan.toSender = .startIndex index :: rest →
      ∃ r', (machine cfg files).step r .sender = some r'
  ends : InFill r.sender.pc → ∀ index, ∃ r',
    (machine cfg files).Reaches (Answers index) r r' ∧
      (Filled cfg r' ∨ ¬ Makes cfg r.sender ∧ r'.sender.alive = false)

/-! ## Where an id is -/

/-- How often an id is in a map. -/
def held (map : HashMap UInt32 FileDetail) (id : UInt32) : Nat :=
  if id ∈ map then 1 else 0

/-- How often an id is being started. -/
def starting (id : UInt32) : SenderPc → Nat
  | .starting other _ => if other = id then 1 else 0
  | _ => 0

variable {map : HashMap UInt32 FileDetail} {id other : UInt32} {details : FileDetail}

theorem held_of_mem (mem : id ∈ map) : held map id = 1 := if_pos mem

theorem held_of_notMem (absent : id ∉ map) : held map id = 0 := if_neg absent

theorem mem_of_held (count : 0 < held map id) : id ∈ map := by
  by_contra absent
  rw [held_of_notMem absent] at count
  cases count

theorem held_erase (mem : other ∈ map) :
    held (map.erase other) id + (if other = id then 1 else 0) = held map id := by
  by_cases same : other = id
  · subst same
    rw [held_of_mem mem, if_pos rfl, held_of_notMem fun kept => (AList.mem_erase.mp kept).1 rfl]
  · rw [if_neg same, Nat.add_zero, held, held]
    exact if_congr (AList.mem_erase.trans (and_iff_right fun h => same h.symm)) rfl rfl

theorem held_insert (absent : other ∉ map) :
    held (map.insert other details) id = held map id + if other = id then 1 else 0 := by
  by_cases same : other = id
  · subst same
    rw [held_of_notMem absent, if_pos rfl, held_of_mem (AList.mem_insert map |>.mpr (.inl rfl))]
  · rw [if_neg same, Nat.add_zero, held, held]
    exact if_congr ((AList.mem_insert map).trans (or_iff_right fun h => same h.symm)) rfl rfl

theorem length_erase_le (map : HashMap UInt32 FileDetail) (id : UInt32) :
    (map.erase id).entries.length ≤ map.entries.length :=
  (List.kerase_sublist id map.entries).length_le

theorem length_insert_le (map : HashMap UInt32 FileDetail) (id : UInt32) (details : FileDetail) :
    (map.insert id details).entries.length ≤ map.entries.length + 1 := by
  rw [AList.entries_insert, List.length_cons]
  exact Nat.succ_le_succ (length_erase_le map id)

/-! ## The invariant -/

/-- The program counters of the controller. -/
def Controls : SenderPc → Prop
  | .building | .awaitingCompleted | .allCompleted => False
  | _ => True

structure Inv (cfg : Config) (files : HashMap UInt32 FileDetail) (sender : Sender)
    (started retired : List UInt32) : Prop where
  controls : Controls sender.pc
  ended : sender.alive = true ∨ sender.pc = .returned
  places : sender.alive = true → ∀ id, held sender.files id + starting id sender.pc +
    held sender.active id + retired.count id = held files id
  bounded : sender.active.entries.length ≤ cfg.max
  room : ∀ id details, sender.pc = .starting id details →
    id = sender.nextId ∧ sender.active.entries.length < cfg.max
  ahead : ∀ id ∈ sender.files, sender.nextId.toNat + starting sender.nextId sender.pc ≤ id.toNat
  ascending : started.Pairwise (· < ·)
  behind : sender.alive = true → ∀ id ∈ started,
    id.toNat < sender.nextId.toNat + starting sender.nextId sender.pc
  active : ∀ id details, sender.pc = .retrying id details → id ∈ sender.active
  finished : sender.pc = .finishing → sender.files.entries = [] ∧ sender.active.entries = []

variable {cfg : Config} {files : HashMap UInt32 FileDetail} {r : Run} {s' : State Fifo}
  {sender : Sender} {started retired : List UInt32}

/-- What leaves `active` is retired. -/
theorem held_left {map' : HashMap UInt32 FileDetail} (subset : ∀ id ∈ map', id ∈ map)
    (id : UInt32) :
    held map' id + (map.keys.filter fun id => decide (id ∉ map')).count id = held map id := by
  by_cases kept : id ∈ map'
  · have gone : id ∉ map.keys.filter fun id => decide (id ∉ map') := by
      simp [kept]
    rw [held_of_mem kept, held_of_mem (subset id kept), List.count_eq_zero_of_not_mem gone]
  · rw [held_of_notMem kept, Nat.zero_add, List.count_filter (by simpa using kept)]
    by_cases mem : id ∈ map
    · rw [held_of_mem mem, List.count_eq_one_of_mem map.keys_nodup (AList.mem_keys.mp mem)]
    · rw [held_of_notMem mem, List.count_eq_zero_of_not_mem fun h => mem (AList.mem_keys.mpr h)]

theorem retired_kept (kept : ∀ id ∈ r.sender.active, id ∈ s'.sender.active) :
    (r.record s').retired = r.retired := by
  have nothing : r.sender.active.keys.filter (fun id => decide (id ∉ s'.sender.active)) = [] := by
    rw [List.filter_eq_nil_iff]
    intro id mem
    simpa using kept id (AList.mem_keys.mpr mem)
  rw [Run.record, nothing, List.append_nil]

theorem retired_same (same : s'.sender.active = r.sender.active) :
    (r.record s').retired = r.retired :=
  retired_kept fun _ mem => same ▸ mem

theorem started_first (filling : r.sender.pc = .filling) {id : UInt32} {details : FileDetail}
    (first : s'.sender.pc = .starting id details) : (r.record s').started = r.started ++ [id] := by
  unfold Run.record
  dsimp only
  rw [filling, first]

theorem started_same (quiet : r.sender.pc = .filling →
    ∀ id details, s'.sender.pc ≠ .starting id details) : (r.record s').started = r.started := by
  unfold Run.record
  dsimp only
  split
  next filling starting => exact absurd starting (quiet filling _ _)
  next => rfl

/-- The steps of the inner loop. -/
theorem filling_cases (pc : r.sender.pc = .filling)
    (next : senderStep cfg fifo r.state = some s') :
    (r.sender.active.entries.length < cfg.max ∧ r.sender.files.entries ≠ [] ∧
        r.sender.nextId ∉ r.sender.files ∧
        s' = r.state.setSender { r.sender with nextId := r.sender.nextId + 1 }) ∨
      (∃ details, r.sender.active.entries.length < cfg.max ∧
        r.sender.files.lookup r.sender.nextId = some details ∧
        s' = (r.state.setSender { r.sender with
            pc := .starting r.sender.nextId details
            files := r.sender.files.erase r.sender.nextId }).setChan
          (fifo.write .sender (.message (.start r.sender.nextId)) r.state.chan)) ∨
      ((cfg.max ≤ r.sender.active.entries.length ∨ r.sender.files.entries = []) ∧
        s' = r.state.setSender (r.sender.goto .waiting)) := by
  have pc : r.state.sender.pc = .filling := pc
  simp only [senderStep, pc] at next
  split at next
  next more =>
    have some_ : r.sender.files.entries ≠ [] := by simpa using more.2
    split at next
    next absent =>
      cases next
      refine .inl ⟨more.1, some_, AList.lookup_eq_none.mp absent, ?_⟩
      rw [← pc]
    next details found =>
      cases next
      exact .inr (.inl ⟨details, more.1, found, rfl⟩)
  next full =>
    cases next
    refine .inr (.inr ⟨?_, rfl⟩)
    by_cases room : r.sender.active.entries.length < cfg.max
    · refine .inr ?_
      by_contra some_
      exact full ⟨room, by simpa using some_⟩
    · exact .inl (Nat.le_of_not_lt room)

/-! ## The steps of the controller -/

theorem starting_self (id : UInt32) (details : FileDetail) :
    starting id (.starting id details) = 1 := if_pos rfl

/-- A step that leaves the schedule alone. -/
theorem Inv.same (inv : Inv cfg files sender started retired) (live : sender.alive = true)
    (before : ∀ id, starting id sender.pc = 0) {after : Sender}
    (files_ : after.files = sender.files) (active : after.active = sender.active)
    (nextId : after.nextId = sender.nextId) (alive : after.alive = sender.alive)
    (controls : Controls after.pc) (notStarting : ∀ id, starting id after.pc = 0)
    (retrying : ∀ id details, after.pc = .retrying id details → id ∈ sender.active)
    (finished : after.pc = .finishing →
      sender.files.entries = [] ∧ sender.active.entries = []) :
    Inv cfg files after started retired where
  controls := controls
  ended := .inl (alive.trans live)
  places := by
    intro _ id
    have places := inv.places live id
    rwa [before, ← notStarting id, ← files_, ← active] at places
  bounded := active ▸ inv.bounded
  room := by
    intro id details pc
    have zero := notStarting id
    rw [pc, starting_self] at zero
    cases zero
  ahead := by
    intro id mem
    rw [notStarting, nextId]
    exact (Nat.le_add_right _ _).trans (inv.ahead id (files_ ▸ mem))
  ascending := inv.ascending
  behind := by
    intro _ id mem
    have behind := inv.behind live id mem
    rw [before] at behind
    rwa [notStarting, nextId]
  active := by
    intro id details pc
    exact active ▸ retrying id details pc
  finished := by
    intro pc
    rw [files_, active]
    exact finished pc

/-- The controller returns an error. -/
theorem Inv.stop (inv : Inv cfg files sender started retired) :
    Inv cfg files sender.stop started retired where
  controls := trivial
  ended := .inr rfl
  places := nofun
  bounded := inv.bounded
  room := nofun
  ahead := fun id mem => (Nat.le_add_right _ _).trans (inv.ahead id mem)
  ascending := inv.ascending
  behind := nofun
  active := nofun
  finished := nofun

/-- The counter can be counted up while something is ahead of it. -/
theorem toNat_succ {n : UInt32} (room : n.toNat + 1 < 2 ^ 32) : (n + 1).toNat = n.toNat + 1 := by
  rw [UInt32.toNat_add]
  exact Nat.mod_eq_of_lt room

/-- What is pending is an id of the manifest, at or ahead of the counter. -/
theorem Inv.pending (inv : Inv cfg files sender started retired) (live : sender.alive = true)
    {id : UInt32} (mem : id ∈ sender.files) : id ∈ files ∧ sender.nextId.toNat ≤ id.toNat := by
  have places := inv.places live id
  rw [held_of_mem mem] at places
  exact ⟨mem_of_held (by omega), (Nat.le_add_right _ _).trans (inv.ahead id mem)⟩

/-- The counter passes over an id that is not pending. -/
theorem Inv.skip (inv : Inv cfg files sender started retired) (pc : sender.pc = .filling)
    (counted : (sender.nextId + 1).toNat = sender.nextId.toNat + 1)
    (absent : sender.nextId ∉ sender.files) :
    Inv cfg files { sender with nextId := sender.nextId + 1 } started retired := by
  have idle : ∀ id, starting id sender.pc = 0 := fun id => by rw [pc]; rfl
  refine ⟨inv.controls, inv.ended, inv.places, inv.bounded, fun id details same => ?_,
    fun id mem => ?_, inv.ascending, fun live id mem => ?_, inv.active, inv.finished⟩
  · cases pc.symm.trans same
  · have ahead := inv.ahead id mem
    have differs : sender.nextId.toNat ≠ id.toNat :=
      fun same => absent (UInt32.toNat_inj.mp same ▸ mem)
    rw [idle] at ahead
    show (sender.nextId + 1).toNat + starting (sender.nextId + 1) sender.pc ≤ _
    rw [idle, counted]
    omega
  · have behind := inv.behind live id mem
    rw [idle] at behind
    show _ < (sender.nextId + 1).toNat + starting (sender.nextId + 1) sender.pc
    rw [idle, counted]
    omega

/-- The id at the counter is started. -/
theorem Inv.start (inv : Inv cfg files sender started retired) (live : sender.alive = true)
    (pc : sender.pc = .filling) (room : sender.active.entries.length < cfg.max)
    (mem : sender.nextId ∈ sender.files) (details : FileDetail) :
    Inv cfg files { sender with
        pc := .starting sender.nextId details
        files := sender.files.erase sender.nextId }
      (started ++ [sender.nextId]) retired := by
  have idle : ∀ id, starting id sender.pc = 0 := fun id => by rw [pc]; rfl
  refine ⟨trivial, .inl live, fun _ id => ?_, inv.bounded, ?_, fun id kept => ?_, ?_,
    fun _ id listed => ?_, nofun, nofun⟩
  · have places := inv.places live id
    have moved := @held_erase sender.files id _ mem
    rw [idle] at places
    show held (sender.files.erase sender.nextId) id +
      (if sender.nextId = id then 1 else 0) + held sender.active id + _ = _
    omega
  · intro id details' same
    cases same
    exact ⟨rfl, room⟩
  · obtain ⟨differs, kept⟩ := AList.mem_erase.mp kept
    have ahead := inv.ahead id kept
    have differs : id.toNat ≠ sender.nextId.toNat := fun same => differs (UInt32.toNat_inj.mp same)
    rw [idle] at ahead
    show sender.nextId.toNat + starting sender.nextId (.starting sender.nextId details) ≤ _
    rw [starting_self]
    omega
  · refine List.pairwise_append.mpr ⟨inv.ascending, List.pairwise_singleton _ _, ?_⟩
    intro earlier listed last isLast
    obtain rfl := List.mem_singleton.mp isLast
    have behind := inv.behind live earlier listed
    rw [idle] at behind
    exact UInt32.lt_iff_toNat_lt.mpr behind
  · show _ < sender.nextId.toNat + starting sender.nextId (.starting sender.nextId details)
    rw [starting_self]
    rcases List.mem_append.mp listed with listed | isLast
    · have behind := inv.behind live id listed
      rw [idle] at behind
      omega
    · obtain rfl := List.mem_singleton.mp isLast
      omega

/-- The receiver has answered for the id at the counter. -/
theorem Inv.answered (inv : Inv cfg files sender started retired) (live : sender.alive = true)
    {id : UInt32} {details : FileDetail} (pc : sender.pc = .starting id details)
    (counted : (sender.nextId + 1).toNat = sender.nextId.toNat + 1)
    (readers : List (UInt32 × UInt64)) :
    Inv cfg files { sender with
        pc := .filling
        active := sender.active.insert id details
        nextId := sender.nextId + 1
        readers := readers }
      started retired := by
  obtain ⟨rfl, room⟩ := inv.room id details pc
  have places : ∀ id, held sender.files id + (if sender.nextId = id then 1 else 0) +
      held sender.active id + retired.count id = held files id := by
    intro id
    have places := inv.places live id
    rwa [pc] at places
  have absent : sender.nextId ∉ sender.active := by
    intro mem
    have places := places sender.nextId
    have once : held files sender.nextId ≤ 1 := by
      unfold held
      split <;> omega
    rw [held_of_mem mem, if_pos rfl] at places
    omega
  refine ⟨trivial, .inl live, fun _ id => ?_, ?_, nofun, fun id mem => ?_, inv.ascending,
    fun _ id listed => ?_, nofun, nofun⟩
  · have places := places id
    have inserted := @held_insert sender.active id _ details absent
    show held sender.files id + 0 + held (sender.active.insert sender.nextId details) id + _ = _
    omega
  · exact (length_insert_le _ _ _).trans room
  · have ahead := inv.ahead id mem
    rw [pc, starting_self] at ahead
    show (sender.nextId + 1).toNat + 0 ≤ _
    rw [counted]
    exact ahead
  · have behind := inv.behind live id listed
    rw [pc, starting_self] at behind
    show _ < (sender.nextId + 1).toNat + 0
    rw [counted]
    exact behind

theorem length_forget_le (message : Message) (active : HashMap UInt32 FileDetail) :
    (forget message active).entries.length ≤ active.entries.length := by
  cases message with
  | end_ id => exact length_erase_le active id
  | failure id reason description =>
      rw [forget]
      split
      next => exact length_erase_le active id
      next => exact Nat.le_refl _
  | _ => exact Nat.le_refl _

/-- A message takes ids out of `active`. -/
theorem Inv.told (inv : Inv cfg files sender started retired) (live : sender.alive = true)
    (pc : sender.pc = .waiting)
    (message : Message) :
    Inv cfg files { sender with active := forget message sender.active }.afterMessage started
      (retired ++ sender.active.keys.filter fun id =>
        decide (id ∉ forget message sender.active)) := by
  have idle : ∀ id, starting id sender.pc = 0 := fun id => by rw [pc]; rfl
  -- the controller goes on to the inner loop, or to its end
  have free := Sender.afterMessage_free { sender with active := forget message sender.active }
  have after : ∀ id, starting id
      (Sender.afterMessage { sender with active := forget message sender.active }).pc = 0 := by
    intro id
    rcases Sender.afterMessage_pc { sender with active := forget message sender.active } with
      pc | pc <;> rw [pc] <;> rfl
  refine ⟨?_, .inl live, fun _ id => ?_, ?_, fun id details same => ?_, fun id mem => ?_,
    inv.ascending, fun _ id listed => ?_, fun id details same => ?_, Sender.afterMessage_eq _⟩
  · rcases Sender.afterMessage_pc { sender with active := forget message sender.active } with
      pc | pc <;> rw [pc] <;> trivial
  · have places := inv.places live id
    have left := @held_left sender.active (forget message sender.active)
      (fun _ mem => mem_of_mem_forget mem) id
    rw [idle] at places
    rw [after, List.count_append]
    show held sender.files id + 0 + held (forget message sender.active) id + _ = _
    omega
  · exact (length_forget_le message sender.active).trans inv.bounded
  · rw [same] at free
    exact free.elim
  · rw [after]
    exact (Nat.le_add_right _ _).trans (inv.ahead id mem)
  · have behind := inv.behind live id listed
    rw [idle] at behind
    rw [after]
    exact behind
  · rw [same] at free
    exact free.elim

/-- The counter does not overflow at an id that is started. -/
theorem Inv.counted (inv : Inv cfg files sender started retired)
    (below : ∀ id ∈ files, id.toNat < 2 ^ 32 - 1) (live : sender.alive = true) {id : UInt32}
    {details : FileDetail} (pc : sender.pc = .starting id details) :
    (sender.nextId + 1).toNat = sender.nextId.toNat + 1 := by
  obtain ⟨rfl, -⟩ := inv.room id details pc
  have places := inv.places live sender.nextId
  rw [pc, starting_self] at places
  have known : sender.nextId ∈ files := mem_of_held (by omega)
  have small := below _ known
  exact toNat_succ (by omega)

/-- The counter does not overflow while files are pending. -/
theorem Inv.counted_of_pending (inv : Inv cfg files sender started retired)
    (below : ∀ id ∈ files, id.toNat < 2 ^ 32 - 1) (live : sender.alive = true)
    (some_ : sender.files.entries ≠ []) : (sender.nextId + 1).toNat = sender.nextId.toNat + 1 := by
  obtain ⟨⟨key, value⟩, rest, entries⟩ := List.exists_cons_of_ne_nil some_
  have there : key ∈ sender.files := by
    rw [AList.mem_keys, AList.keys, entries]
    exact List.mem_cons_self
  obtain ⟨known, ahead⟩ := inv.pending live there
  have small := below key known
  exact toNat_succ (by omega)

/-- A step at the head of the inner loop keeps the account. -/
theorem inv_filling (inv : Inv cfg files r.sender r.started r.retired)
    (below : ∀ id ∈ files, id.toNat < 2 ^ 32 - 1) (live : r.sender.alive = true)
    (filling : r.sender.pc = .filling) (next : senderStep cfg fifo r.state = some s') :
    Inv cfg files s'.sender (r.record s').started (r.record s').retired := by
  have idle : ∀ id, starting id r.sender.pc = 0 := fun id => by rw [filling]; rfl
  rcases filling_cases filling next with ⟨-, some_, absent, rfl⟩ | ⟨details, room, found, rfl⟩ |
    ⟨-, rfl⟩
  · rw [retired_same, started_same]
    · exact inv.skip filling (inv.counted_of_pending below live some_) absent
    · exact fun _ id details same => by cases filling.symm.trans same
    · rfl
  · rw [retired_same, started_first filling]
    · exact inv.start live filling room
        (AList.lookup_isSome.mp (Option.isSome_of_eq_some found)) details
    · rfl
    · rfl
  · rw [retired_same, started_same]
    · exact inv.same live idle rfl rfl rfl rfl trivial (fun _ => rfl) nofun nofun
    · nofun
    · rfl

theorem inv_sender (inv : Inv cfg files r.sender r.started r.retired)
    (below : ∀ id ∈ files, id.toNat < 2 ^ 32 - 1) (live : r.sender.alive = true)
    (next : senderStep cfg fifo r.state = some s') :
    Inv cfg files s'.sender (r.record s').started (r.record s').retired := by
  by_cases filling : r.sender.pc = .filling
  · exact inv_filling inv below live filling next
  · rw [started_same fun pc => absurd pc filling]
    have controls := inv.controls
    cases senderStep_cases next with
    | nothing pc | manifest pc | completed pc _ | allCompleted pc =>
        have pc : r.sender.pc = _ := pc
        rw [pc] at controls
        exact controls.elim
    | skip pc => exact absurd pc filling
    | start pc _ => exact absurd pc filling
    | full pc => exact absurd pc filling
    | @started id details index rest pc inbox =>
        have counted := inv.counted below live pc
        obtain ⟨rfl, -⟩ := inv.room id details pc
        have pc : r.sender.pc = _ := pc
        rw [retired_kept]
        · exact inv.answered live pc counted _
        · exact fun other mem => (AList.mem_insert _).mpr (.inr mem)
    | @told message rest pc inbox settles => exact inv.told live pc message
    | @retry id details description rest pc inbox found =>
        have pc : r.sender.pc = _ := pc
        rw [retired_same]
        · refine inv.same live (fun _ => by rw [pc]; rfl) rfl rfl rfl rfl trivial
            (fun _ => rfl) ?_ nofun
          rintro _ _ ⟨⟩
          exact AList.lookup_isSome.mp (by rw [found]; rfl)
        · rfl
    | @retried id details index rest pc inbox =>
        have pc : r.sender.pc = _ := pc
        have free := Sender.afterMessage_free r.sender
        have after := Sender.afterMessage_pc r.sender
        rw [retired_same]
        · refine inv.same live (fun _ => by rw [pc]; rfl) rfl rfl rfl rfl ?_ ?_ ?_
            (Sender.afterMessage_eq r.sender)
          · show Controls r.sender.afterMessage.pc
            rcases after with pc | pc <;> rw [pc] <;> trivial
          · intro id
            show starting id r.sender.afterMessage.pc = 0
            rcases after with pc | pc <;> rw [pc] <;> rfl
          · intro id details same
            have same : r.sender.afterMessage.pc = _ := same
            rw [same] at free
            exact free.elim
        · rfl
    | finish pc =>
        have pc : r.sender.pc = _ := pc
        rw [retired_same]
        · exact inv.same live (fun _ => by rw [pc]; rfl) rfl rfl rfl rfl trivial
            (fun _ => rfl) nofun nofun
        · rfl
    | stopped waits later =>
        rw [retired_same]
        · exact inv.stop
        · rfl

theorem inv_reached (below : ∀ id ∈ files, id.toNat < 2 ^ 32 - 1)
    (reached : (machine cfg files).Reachable r) : Inv cfg files r.sender r.started r.retired := by
  refine @Machine.ReachableVia.invariant _ _ _ _
    (fun r => Inv cfg files r.sender r.started r.retired) ?_ ?_ _ reached
  · rintro r ⟨pc, pending, active, nextId, live, started, retired⟩
    rw [started, retired]
    have idle : ∀ id, starting id r.sender.pc = 0 := fun id => by rw [pc]; rfl
    refine ⟨by rw [pc]; trivial, .inl live, fun _ id => ?_, ?_, ?_, fun id _ => ?_,
      List.Pairwise.nil, nofun, ?_, ?_⟩
    · rw [idle, pending, active]
      rfl
    · rw [active]
      exact Nat.zero_le _
    · rw [pc]
      nofun
    · rw [idle, nextId]
      exact Nat.zero_le _
    · rw [pc]
      nofun
    · rw [pc]
      nofun
  · intro r event r' _ inv _ next
    cases event with
    | sender =>
        simp only [machine] at next
        split at next
        next live =>
          obtain ⟨s', stepped, rfl⟩ := Option.map_eq_some_iff.mp next
          exact inv_sender inv below live stepped
        next => cases next
    | others shared replies =>
        cases next
        exact inv

/-! ## The schedule -/

theorem not_writes (same : s'.chan.toReceiver = r.state.chan.toReceiver) (packet : Packet) :
    ¬ Writes r.state s' packet := by
  intro writes
  have count := congrArg List.length (same.symm.trans writes)
  simp at count

theorem eq_of_writes {written packet : Packet}
    (wrote : s'.chan.toReceiver = r.state.chan.toReceiver ++ [written])
    (writes : Writes r.state s' packet) : written = packet := by
  have same := List.append_cancel_left (wrote.symm.trans writes)
  exact List.singleton_inj.mp same

theorem Inv.scheduled (inv : Inv cfg files r.sender r.started r.retired) :
    Scheduled cfg files r where
  placed := by
    intro head id known
    have idle : starting id r.sender.pc = 0 := by
      generalize r.sender.pc = pc at head
      cases pc <;> first | rfl | exact head.elim
    have live : r.sender.alive = true := by
      refine inv.ended.resolve_right fun pc => ?_
      rw [pc] at head
      exact head
    have places := inv.places live id
    rw [idle, held_of_mem known] at places
    by_cases pending : id ∈ r.sender.files
    · rw [held_of_mem pending] at places
      refine .inl ⟨pending, fun active => ?_, List.count_eq_zero.mp (by omega)⟩
      rw [held_of_mem active] at places
      omega
    · rw [held_of_notMem pending] at places
      by_cases active : id ∈ r.sender.active
      · rw [held_of_mem active] at places
        exact .inr (.inl ⟨pending, active, List.count_eq_zero.mp (by omega)⟩)
      · rw [held_of_notMem active] at places
        exact .inr (.inr ⟨pending, active, List.count_pos_iff.mp (by omega)⟩)
  bounded := inv.bounded
  ahead := fun id mem =>
    UInt32.le_iff_toNat_le.mpr ((Nat.le_add_right _ _).trans (inv.ahead id mem))

/-- A step of the inner loop at its head. -/
theorem orderly_filling (inv : Inv cfg files r.sender r.started r.retired)
    (below : ∀ id ∈ files, id.toNat < 2 ^ 32 - 1) (live : r.sender.alive = true)
    (pc : r.sender.pc = .filling) (next : senderStep cfg fifo r.state = some s') :
    Orderly cfg files r s' := by
  have bound := r.sender.nextId.toNat_lt
  have rank : fillRank r.sender = 2 * (2 ^ 32 - r.sender.nextId.toNat) := by rw [fillRank, pc]
  rcases filling_cases pc next with ⟨-, some_, absent, rfl⟩ | ⟨details, room, found, rfl⟩ |
    ⟨full, rfl⟩
  · have counted := inv.counted_of_pending below live some_
    refine ⟨fun _ _ => ?_, .inr counted, fun _ same => ?_, fun _ id writes => ?_,
      fun other => absurd pc other, fun writes => ?_⟩
    · rw [rank]
      show fillRank { r.sender with nextId := r.sender.nextId + 1 } < _
      rw [fillRank]
      simp only [pc, counted]
      omega
    · cases pc.symm.trans same
    · exact absurd writes (not_writes rfl _)
    · exact absurd writes (not_writes rfl _)
  · refine ⟨fun _ _ => ?_, .inl rfl, nofun, fun _ id writes => ?_, fun other => absurd pc other,
      fun writes => ?_⟩
    · rw [rank]
      show 2 * (2 ^ 32 - r.sender.nextId.toNat) - 1 < _
      omega
    · have same : Packet.message (.start r.sender.nextId) = .message (.start id) :=
        eq_of_writes rfl writes
      cases same
      refine ⟨AList.lookup_isSome.mp (Option.isSome_of_eq_some found), fun other listed => ?_⟩
      have behind := inv.behind live other listed
      rw [pc] at behind
      exact UInt32.lt_iff_toNat_lt.mpr behind
    · have same : Packet.message (.start r.sender.nextId) = .message (.done 2) :=
        eq_of_writes rfl writes
      cases same
  · refine ⟨fun _ inFill => inFill.elim, .inl rfl, fun _ _ => ?_, fun _ id writes => ?_,
      fun other => absurd pc other, fun writes => ?_⟩
    · exact full.imp_left fun full => Nat.le_antisymm inv.bounded full
    · exact absurd writes (not_writes rfl _)
    · exact absurd writes (not_writes rfl _)

/-- A step of the controller is orderly. -/
theorem orderly_step (inv : Inv cfg files r.sender r.started r.retired)
    (below : ∀ id ∈ files, id.toNat < 2 ^ 32 - 1) (live : r.sender.alive = true)
    (next : senderStep cfg fifo r.state = some s') : Orderly cfg files r s' := by
  by_cases filling : r.sender.pc = .filling
  · exact orderly_filling inv below live filling next
  -- outside the inner loop, a step that writes nothing
  have silent : ∀ {s' : State Fifo}, s'.chan.toReceiver = r.state.chan.toReceiver →
      s'.sender.nextId = r.sender.nextId →
      (InFill r.sender.pc → InFill s'.sender.pc → False) → Orderly cfg files r s' := by
    intro s' quiet nextId outside
    exact ⟨fun before after => (outside before after).elim, .inl (by rw [nextId]),
      fun pc => absurd pc filling, fun pc => absurd pc filling,
      fun _ _ writes => absurd writes (not_writes quiet _),
      fun writes => absurd writes (not_writes quiet _)⟩
  have controls := inv.controls
  cases senderStep_cases next with
  | nothing pc | manifest pc | completed pc _ | allCompleted pc =>
      have pc : r.sender.pc = _ := pc
      rw [pc] at controls
      exact controls.elim
  | skip pc => exact absurd pc filling
  | start pc _ => exact absurd pc filling
  | full pc => exact absurd pc filling
  | @started id details index rest pc inbox =>
      have pc : r.sender.pc = _ := pc
      have counted := inv.counted below live pc
      refine ⟨fun _ _ => ?_, .inr counted, fun pc => absurd pc filling, fun pc => absurd pc filling,
        fun _ _ writes => absurd writes (not_writes rfl _),
        fun writes => absurd writes (not_writes rfl _)⟩
      have bound := r.sender.nextId.toNat_lt
      show 2 * (2 ^ 32 - (r.sender.nextId + 1).toNat) < fillRank r.sender
      rw [fillRank, pc, counted]
      dsimp only
      omega
  | @told message rest pc inbox settles =>
      have pc : r.sender.pc = _ := pc
      exact silent rfl rfl fun before => by rw [pc] at before; exact before.elim
  | @retry id details description rest pc inbox found =>
      have pc : r.sender.pc = _ := pc
      refine ⟨fun before => by rw [pc] at before; exact before.elim, .inl rfl,
        fun pc => absurd pc filling, fun pc => absurd pc filling, fun _ other writes => ?_,
        fun writes => ?_⟩
      · have same : Packet.message (.start id) = .message (.start other) := eq_of_writes rfl writes
        cases same
        exact AList.lookup_isSome.mp (by rw [found]; rfl)
      · have same : Packet.message (.start id) = .message (.done 2) := eq_of_writes rfl writes
        cases same
  | retried pc inbox =>
      have pc : r.sender.pc = _ := pc
      exact silent rfl rfl fun before => by rw [pc] at before; exact before.elim
  | finish pc =>
      have pc : r.sender.pc = _ := pc
      refine ⟨fun _ after => after.elim, .inl rfl,
        fun pc => absurd pc filling, fun pc => absurd pc filling, fun _ other writes => ?_,
        fun _ id known => ?_⟩
      · have same : Packet.message (.done 2) = .message (.start other) := eq_of_writes rfl writes
        cases same
      · obtain ⟨noFiles, noActive⟩ := inv.finished pc
        have places := inv.places live id
        have pending : id ∉ r.sender.files := by
          rw [AList.mem_keys, AList.keys, noFiles]
          exact List.not_mem_nil
        have running : id ∉ r.sender.active := by
          rw [AList.mem_keys, AList.keys, noActive]
          exact List.not_mem_nil
        rw [pc, held_of_notMem pending, held_of_notMem running, held_of_mem known] at places
        exact List.count_pos_iff.mp (by simp only [starting] at places; omega)
  | stopped waits later => exact silent rfl rfl fun _ after => after.elim

/-! ## The end of the inner loop -/

/-- What is left to do until the inner loop has ended. -/
def toFill (sender : Sender) : Nat :=
  match sender.pc with
  | .filling | .starting .. => fillRank sender + 1
  | _ => 0

theorem toFill_of_inFill (inFill : InFill sender.pc) : toFill sender = fillRank sender + 1 := by
  unfold toFill
  generalize sender.pc = pc at inFill
  cases pc <;> first | rfl | exact inFill.elim

/-- The controller is alive inside the inner loop. -/
theorem Inv.alive_of_inFill (inv : Inv cfg files sender started retired)
    (inFill : InFill sender.pc) : sender.alive = true := by
  refine inv.ended.resolve_right fun pc => ?_
  rw [pc] at inFill
  exact inFill

theorem machine_step (live : r.sender.alive = true) (next : senderStep cfg fifo r.state = some s') :
    (machine cfg files).step r .sender = some (r.record s') := by
  show (if r.sender.alive then _ else _) = _
  rw [if_pos live, next]
  rfl

variable (cfg) in
/-- At its head, the inner loop waits for nothing. -/
theorem exists_step_filling (pc : r.sender.pc = .filling) :
    ∃ s', senderStep cfg fifo r.state = some s' := by
  have pc : r.state.sender.pc = .filling := pc
  simp only [senderStep, pc]
  split
  · split
    · exact ⟨_, rfl⟩
    · exact ⟨_, rfl⟩
  · exact ⟨_, rfl⟩

/-- Inside, it waits for the answer. -/
theorem step_starting {details : FileDetail} {index : UInt64} {rest : List Packet}
    (pc : r.sender.pc = .starting id details)
    (reply : r.state.chan.toSender = .startIndex index :: rest) :
    senderStep cfg fifo r.state = some ((r.state.setChan { r.state.chan with
        toSender := rest }).setSender (r.sender.spawnReader cfg id details index
      { r.sender with
        pc := .filling
        active := r.sender.active.insert id details
        nextId := r.sender.nextId + 1 })) := by
  have pc : r.state.sender.pc = _ := pc
  simp only [senderStep, pc, fifo, reply]
  rfl

theorem spawnReader_of_unmade {sender next : Sender} {details : FileDetail} {index : UInt64}
    (unmade : ∀ cipher, details.crypto.makeCipher cfg.crates.cipher ≠ .made cipher) :
    sender.spawnReader cfg id details index next = sender.stop := by
  unfold Sender.spawnReader
  split
  next cipher made => exact absurd made (unmade cipher)
  next => rfl

/-- A step from the head leads into the loop, or to its end. -/
theorem inFill_or_filled (inv : Inv cfg files r.sender r.started r.retired)
    (pc : r.sender.pc = .filling) (next : senderStep cfg fifo r.state = some s') :
    InFill s'.sender.pc ∨ Filled cfg (r.record s') := by
  rcases filling_cases pc next with ⟨-, -, -, rfl⟩ | ⟨details, -, found, rfl⟩ | ⟨full, rfl⟩
  · left
    show InFill r.sender.pc
    rw [pc]
    trivial
  · exact .inl trivial
  · exact .inr ⟨rfl, full.imp_left fun full => Nat.le_antisymm inv.bounded full⟩

/-- What is started is one of the pending files. -/
theorem Makes.filling (makes : Makes cfg r.sender) (pc : r.sender.pc = .filling)
    (next : senderStep cfg fifo r.state = some s') : Makes cfg s'.sender := by
  rcases filling_cases pc next with ⟨-, -, -, rfl⟩ | ⟨details, -, found, rfl⟩ | ⟨-, rfl⟩
  · refine ⟨makes.pending, fun id details same => ?_⟩
    cases pc.symm.trans same
  · refine ⟨fun id details found => makes.pending id details (lookup_of_lookup_erase found), ?_⟩
    rintro _ _ ⟨⟩
    exact makes.pending _ _ found
  · exact ⟨makes.pending, nofun⟩

/-- One round of the inner loop. -/
theorem exists_round (below : ∀ id ∈ files, id.toNat < 2 ^ 32 - 1)
    (reached : (machine cfg files).Reachable r) (inFill : InFill r.sender.pc)
    (index : UInt32 → UInt64) :
    ∃ r', (machine cfg files).Reaches (Answers index) r r' ∧
      (Makes cfg r.sender → Makes cfg r'.sender) ∧
      (InFill r'.sender.pc ∨ Filled cfg r' ∨ ¬ Makes cfg r.sender ∧ r'.sender.alive = false) ∧
      toFill r'.sender < toFill r.sender := by
  have inv := inv_reached below reached
  have live := inv.alive_of_inFill inFill
  cases pc : r.sender.pc with
  | filling =>
      obtain ⟨s', next⟩ := exists_step_filling cfg pc
      have after := inFill_or_filled inv pc next
      refine ⟨_, .single (a := .sender) inFill (machine_step live next),
        fun makes => makes.filling pc next, after.imp_right .inl, ?_⟩
      rw [toFill_of_inFill inFill]
      rcases after with after | ⟨ended, -⟩
      · have after : InFill (r.record s').sender.pc := after
        rw [toFill_of_inFill after]
        exact Nat.succ_lt_succ ((orderly_step inv below live next).fills inFill after)
      · rw [toFill, ended]
        exact Nat.succ_pos _
  | starting id details =>
      -- the answer comes, and the controller takes it
      let answered : Run := { r with state := { r.state with
        chan := { r.state.chan with toSender := [.startIndex (index id)] } } }
      have comes : (machine cfg files).step r (.others r.state.shared [.startIndex (index id)]) =
        some answered := rfl
      have next : senderStep cfg fifo answered.state = some _ := step_starting pc rfl
      have inv := inv_reached below (reached.step trivial comes)
      have orderly := orderly_step inv below live next
      have first : (machine cfg files).Reaches (Answers index) r answered :=
        Machine.Reaches.single (a := .others r.state.shared [.startIndex (index id)])
          ⟨rfl, id, details, pc, rfl⟩ comes
      have second : (machine cfg files).Reaches (Answers index) answered _ :=
        Machine.Reaches.single (a := Event.sender) inFill (machine_step live next)
      by_cases made : ∃ cipher, details.crypto.makeCipher cfg.crates.cipher = .made cipher
      · obtain ⟨cipher, made⟩ := made
        rw [Sender.spawnReader, made] at orderly second
        have less := orderly.fills inFill trivial
        refine ⟨_, first.trans second, fun makes => ⟨makes.pending, fun _ _ same => ?_⟩,
          .inl trivial, ?_⟩
        · cases same
        · rw [toFill_of_inFill inFill]
          exact Nat.succ_lt_succ less
      · rw [spawnReader_of_unmade (not_exists.mp made)] at second
        refine ⟨_, first.trans second, fun makes => absurd (makes.starting id details pc) made,
          .inr (.inr ⟨fun makes => made (makes.starting id details pc), rfl⟩), ?_⟩
        rw [toFill_of_inFill inFill]
        exact Nat.succ_pos _
  | _ =>
      rw [pc] at inFill
      exact inFill.elim

/-- The inner loop goes on, and comes to its end. -/
theorem filling_reached (below : ∀ id ∈ files, id.toNat < 2 ^ 32 - 1)
    (reached : (machine cfg files).Reachable r) : Filling cfg files r where
  goesOn := by
    intro pc
    have live := (inv_reached below reached).alive_of_inFill (by rw [pc]; trivial)
    obtain ⟨s', next⟩ := exists_step_filling cfg pc
    exact ⟨_, machine_step live next⟩
  answered := by
    intro id details index rest pc reply
    have live := (inv_reached below reached).alive_of_inFill (by rw [pc]; trivial)
    exact ⟨_, machine_step live (step_starting pc reply)⟩
  ends := by
    intro inFill index
    let ended (r' : Run) : Prop :=
      Filled cfg r' ∨ ¬ Makes cfg r.sender ∧ r'.sender.alive = false
    obtain ⟨r', reaches, -, done⟩ := @Machine.reaches_goal _ _ (machine cfg files) (Answers index)
      r (fun r' => (machine cfg files).Reachable r' ∧ (Makes cfg r.sender → Makes cfg r'.sender) ∧
        (InFill r'.sender.pc ∨ ended r')) ended (fun r' => toFill r'.sender) (by
        rintro r₁ ⟨reached, makes, after⟩ pending
        obtain ⟨r₂, reaches, makes', after, less⟩ :=
          exists_round below reached (after.resolve_right pending) index
        have reached := reached.reaches (reaches.mono fun _ _ _ => trivial)
        refine ⟨r₂, reaches, ⟨reached, fun all => makes' (makes all), ?_⟩, less⟩
        exact after.imp_right (Or.imp_right (And.imp_left (mt makes)))) ⟨reached, id, .inl inFill⟩
    exact ⟨r', reaches, done⟩

/-- **The schedule.**  In every state of the controller each id is pending, active or
retired, every step of the controller is orderly, whatever it is sent, and its inner loop
comes to its end. -/
theorem controller_scheduled (below : ∀ id ∈ files, id.toNat < 2 ^ 32 - 1)
    (reached : (machine cfg files).Reachable r) :
    Scheduled cfg files r ∧ r.started.Pairwise (· < ·) ∧
      (∀ r', (machine cfg files).step r .sender = some r' → Orderly cfg files r r'.state) ∧
      Filling cfg files r := by
  have inv := inv_reached below reached
  refine ⟨inv.scheduled, inv.ascending, fun r' next => ?_, filling_reached below reached⟩
  simp only [machine] at next
  split at next
  next live =>
    obtain ⟨s', stepped, rfl⟩ := Option.map_eq_some_iff.mp next
    exact orderly_step inv below live stepped
  next => cases next

/-- Four ids, two at a time. -/
def sparse : Config := { emptyFile with max := 2 }

/-- The files that are not completed. -/
def sparseFiles : HashMap UInt32 FileDetail :=
  [2, 5, 9, 11].foldl (fun files id => files.insert id ⟨[102], 0, none, ⟨0, [], []⟩⟩) ∅

/-- The controller before it starts anything. -/
def sparseRun : Run where
  state :=
    { initial sparse emptyDisk ⟨[], []⟩ with
      sender := { (initial sparse emptyDisk (⟨[], []⟩ : Fifo)).sender with
        pc := .filling
        files := sparseFiles } }
  started := []
  retired := []

/-- What the receiver has reported, and its answer to a `Start`. -/
def reports (messages : List Message) (replies : List Packet) : Event :=
  .others { (initial sparse emptyDisk (⟨[], []⟩ : Fifo)).shared with messages := messages } replies

/-- `Start` for 2, 5 and 9, with an `End` of 2 that comes twice and one of 5. -/
def sparseEvents : List Event :=
  List.replicate 3 .sender ++ [reports [.end_ 2, .end_ 2, .end_ 5] [.startIndex 0], .sender] ++
    List.replicate 3 .sender ++ [reports [.end_ 2, .end_ 2, .end_ 5] [.startIndex 0], .sender] ++
    List.replicate 6 .sender ++ [reports [.end_ 2, .end_ 5] [.startIndex 0], .sender] ++
    List.replicate 4 .sender

/-- The controller is at the head of its inner loop, with one file left, and goes on in it. -/
def fillsAgain (r : Run) : Bool :=
  match r.sender.pc, (machine sparse sparseFiles).step r .sender with
  | .filling, some r' =>
      decide (r.started = [2, 5, 9] ∧ r.retired = [2, 5] ∧
        r.sender.files.entries = [⟨11, ⟨[102], 0, none, ⟨0, [], []⟩⟩⟩]) &&
      match r'.sender.pc with
      | .filling => true
      | _ => false
  | _, _ => false

theorem controller_scheduled_sparse : ∃ r, (machine sparse sparseFiles).Reachable r ∧
    r.started = [2, 5, 9] ∧ r.retired = [2, 5] ∧ Scheduled sparse sparseFiles r ∧
    (∃ r', (machine sparse sparseFiles).step r .sender = some r' ∧
      fillRank r'.sender < fillRank r.sender) ∧
    ∃ r', (machine sparse sparseFiles).Reaches (Answers fun _ => 0) r r' ∧ Filled sparse r' := by
  have start : (machine sparse sparseFiles).init sparseRun := ⟨rfl, rfl, rfl, rfl, rfl, rfl, rfl⟩
  obtain ⟨r, reached, passed⟩ :=
    Machine.reachable_of_test start sparseEvents fillsAgain (by decide +kernel)
  have below : ∀ id ∈ sparseFiles, id.toNat < 2 ^ 32 - 1 := by
    have small : sparseFiles.keys.all (fun id => decide (id.toNat < 2 ^ 32 - 1)) = true := by
      decide
    exact fun id mem => of_decide_eq_true (List.all_eq_true.mp small id (AList.mem_keys.mp mem))
  unfold fillsAgain at passed
  split at passed
  next r' pc next =>
    obtain ⟨here, there⟩ := Bool.and_eq_true_iff.mp passed
    obtain ⟨started, retired, files⟩ := of_decide_eq_true here
    split at there
    next after =>
      have inFill : InFill r.sender.pc := by
        rw [pc]
        trivial
      have makes : Makes sparse r.sender := by
        refine ⟨fun id details found => ?_, fun id details same => ?_⟩
        · have mem := AList.mem_lookup_iff.mp found
          rw [files] at mem
          cases List.mem_singleton.mp mem
          exact ⟨_, rfl⟩
        · cases pc.symm.trans same
      obtain ⟨scheduled, -, orderly, fills⟩ := controller_scheduled below reached
      obtain ⟨end_, reaches, ended⟩ := fills.ends inFill fun _ => 0
      refine ⟨r, reached, started, retired, scheduled, ⟨r', next, ?_⟩,
        end_, reaches, ended.resolve_right fun unmade => unmade.1 makes⟩
      refine (orderly r' next).fills inFill ?_
      rw [after]
      trivial
    next => cases there
  next => cases passed

end Schedule

end Control

end Cccp
