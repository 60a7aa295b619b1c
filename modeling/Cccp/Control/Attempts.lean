import Cccp.Control.Handshake
import Cccp.Lib.Counting

/-!
# Counting attempts

An attempt to transfer a file is a `Start` message, then an entry in the receiver's
program counter, then a writer task, and last what the task has to tell the sender.
`tokens` counts the attempts of an id along these stations: which phases of a task and
which messages count is a parameter.  No step of the receiver changes the count
(`tokens_receiver`); what a step of a task changes is what it changes at its own
station (`tokens_task`).
-/

namespace Cccp

namespace Control

/-- A `Start` message for `id`. -/
def Packet.starts (id : UInt32) : Packet → Bool
  | message (.start other) => decide (other = id)
  | _ => false

/-- The details of the attempt the receiver is about to spawn. -/
def ReceiverPc.hand : ReceiverPc → Option FileDetails
  | .replying details | .pushing details | .spawning details => some details
  | _ => none

/-- The id of the attempt the receiver is about to spawn. -/
def ReceiverPc.spawns (pc : ReceiverPc) : Option UInt32 :=
  pc.hand.map FileDetails.id

def ReceiverPc.spawnCount (id : UInt32) (pc : ReceiverPc) : Nat :=
  if pc.spawns = some id then 1 else 0

/-- The attempts of `id`: those not spawned yet, those whose task is in a `counted`
phase, and the `counted` messages in flight to the sender. -/
def tokens (phases : Phase → Bool) (news : Message → Bool) (id : UInt32) (s : State Fifo) : Nat :=
  s.chan.toReceiver.countP (Packet.starts id) +
    s.receiver.pc.spawnCount id +
    s.tasks.countP (fun task => decide (task.id = id) && phases task.phase) +
    s.shared.messages.countP news

variable {cfg : Config} {s s' : State Fifo} {phases : Phase → Bool} {news : Message → Bool}
  {id : UInt32}

theorem tokens_mono {phases' : Phase → Bool}
    (weaker : ∀ phase, phases phase = true → phases' phase = true) :
    tokens phases news id s ≤ tokens phases' news id s := by
  have fewer : s.tasks.countP (fun task => decide (task.id = id) && phases task.phase) ≤
      s.tasks.countP (fun task => decide (task.id = id) && phases' task.phase) := by
    refine List.countP_mono_left fun task _ counted => ?_
    obtain ⟨own, here⟩ := Bool.and_eq_true_iff.mp counted
    rw [own, weaker _ here]
    rfl
  simp only [tokens]
  omega

theorem tokens_receiver (opening : phases .opening = true) (agreed : Agreed cfg s)
    (move : ReceiverMove cfg s s') : tokens phases news id s' = tokens phases news id s := by
  cases move with
  | manifest pc inbox =>
      simp [tokens, State.setToReceiver, State.setChan, State.setReceiver, Receiver.goto, pc,
        inbox, ReceiverPc.spawnCount, ReceiverPc.spawns, ReceiverPc.hand, Packet.starts]
  | nothing pc inbox =>
      simp [tokens, State.setToReceiver, State.setChan, State.setReceiver, Receiver.goto, pc,
        inbox, ReceiverPc.spawnCount, ReceiverPc.spawns, ReceiverPc.hand, Packet.starts]
  | completed pc prepared =>
      simp [tokens, State.receiverSays, State.setChan, State.setReceiver, pc,
        ReceiverPc.spawnCount, ReceiverPc.spawns, ReceiverPc.hand]
  | noSpace pc =>
      simp [tokens, State.receiverSays, State.setChan, State.setReceiver, Receiver.stop, pc,
        ReceiverPc.spawnCount, ReceiverPc.spawns, ReceiverPc.hand]
  | setUp pc created =>
      simp [tokens, State.setReceiver, State.setShared, Shared.setDisk, Receiver.goto, pc,
        ReceiverPc.spawnCount, ReceiverPc.spawns, ReceiverPc.hand]
  | @start id' details rest pc inbox known =>
      have named : (restarted s.shared.disk details).id = id' := by
        rw [restarted]
        split <;> exact agreed.named id' details known
      simp [tokens, State.setToReceiver, State.setChan, State.setReceiver, pc, inbox,
        ReceiverPc.spawnCount, ReceiverPc.spawns, ReceiverPc.hand, Packet.starts,
        List.countP_cons, named]
  | unknown pc inbox unknown => exact absurd (agreed.known pc inbox) unknown
  | done pc inbox last =>
      simp [tokens, State.setToReceiver, State.setChan, State.setReceiver, State.setShared,
        Receiver.goto, pc, inbox, ReceiverPc.spawnCount, ReceiverPc.spawns, ReceiverPc.hand,
        Packet.starts]
  | reply pc =>
      simp [tokens, State.receiverSays, State.setChan, State.setReceiver, Receiver.goto, pc,
        ReceiverPc.spawnCount, ReceiverPc.spawns, ReceiverPc.hand]
  | push pc =>
      simp [tokens, State.setShared, Shared.pushQueue, State.setReceiver, Receiver.goto, pc,
        ReceiverPc.spawnCount, ReceiverPc.spawns, ReceiverPc.hand]
  | @spawn details pc =>
      by_cases same : details.id = id <;>
        simp [tokens, Receiver.goto, pc, ReceiverPc.spawnCount,
          ReceiverPc.spawns, ReceiverPc.hand, WriterTask.id, opening,
          same]
      omega
  | unprepared pc =>
      simp [tokens, State.setReceiver, Receiver.stop, pc, ReceiverPc.spawnCount,
        ReceiverPc.spawns, ReceiverPc.hand]
  | stopped reads inbox unexpected => exact absurd (agreed.expects reads inbox) unexpected

/-- What one task and the messages to the sender count. -/
def stationTokens (phases : Phase → Bool) (news : Message → Bool) (id : UInt32)
    (shared : Shared) (task : WriterTask) : Nat :=
  (if task.id = id ∧ phases task.phase = true then 1 else 0) + shared.messages.countP news

theorem tokens_task {index : Nat} {task task' : WriterTask} {shared' : Shared}
    (here : s.tasks[index]? = some task) :
    tokens phases news id { s with shared := shared', tasks := s.tasks.set index task' } +
        stationTokens phases news id s.shared task =
      tokens phases news id s + stationTokens phases news id shared' task' := by
  have replaced := @countP_set_add _
    (fun task : WriterTask => decide (task.id = id) && phases task.phase) _ _ _ here task'
  simp only [Bool.and_eq_true, decide_eq_true_eq] at replaced
  simp only [tokens, stationTokens]
  omega

/-! ## Steps of the sender -/

@[simp] theorem tokens_setSender (sender : Sender) :
    tokens phases news id (s.setSender sender) = tokens phases news id s := rfl

@[simp] theorem tokens_setToSender (packets : List Packet) :
    tokens phases news id (s.setToSender packets) = tokens phases news id s := rfl

theorem tokens_senderSays (pc : SenderPc) (packet : Packet) :
    tokens phases news id (s.senderSays pc packet) =
      tokens phases news id s + if packet.starts id then 1 else 0 := by
  simp only [tokens, State.senderSays, State.setChan, State.setSender, List.countP_append,
    List.countP_singleton]
  omega

theorem tokens_setMessages {message : Message} {rest : List Message}
    (inbox : s.shared.messages = message :: rest) :
    tokens phases news id (s.setMessages rest) + (if news message then 1 else 0) =
      tokens phases news id s := by
  simp only [tokens, State.setMessages, State.setShared, inbox, List.countP_cons]
  omega

/-! ## The details of an attempt -/

/-- The receiver has not told the sender yet which files it waits for. -/
def ReceiverPc.Preparing : ReceiverPc → Prop
  | .awaitingManifest | .preparing _ | .settingUp _ => True
  | _ => False

/-- Every attempt has the paths the receiver listed for its id. -/
structure Listed (s : State Fifo) : Prop where
  hand : ∀ details, s.receiver.pc.hand = some details →
    s.receiver.files.lookup details.id = some details
  tasks : ∀ task ∈ s.tasks, ∃ details, s.receiver.files.lookup task.id = some details ∧
    details.partialPath = task.details.partialPath ∧ details.path = task.details.path
  early : s.receiver.pc.Preparing → s.tasks = []

theorem restarted_eq (disk : FileSystem Path) (details : FileDetails) :
    (restarted disk details).id = details.id ∧
      (restarted disk details).partialPath = details.partialPath ∧
      (restarted disk details).path = details.path := by
  unfold restarted
  split <;> exact ⟨rfl, rfl, rfl⟩

theorem listed_receiver (agreed : Agreed cfg s) (listed : Listed s)
    (move : ReceiverMove cfg s s') : Listed s' := by
  obtain ⟨hand, tasks, early⟩ := listed
  cases move with
  | manifest pc inbox => exact ⟨nofun, tasks, fun _ => early (by rw [pc]; trivial)⟩
  | nothing pc inbox => exact ⟨nofun, tasks, nofun⟩
  | completed pc prepared =>
      have none_ := early (by rw [pc]; trivial)
      refine ⟨nofun, fun task mem => ?_, fun _ => none_⟩
      have mem : task ∈ s.tasks := mem
      rw [none_] at mem
      cases mem
  | noSpace pc => exact ⟨nofun, tasks, nofun⟩
  | setUp pc created => exact ⟨nofun, tasks, nofun⟩
  | @start id details rest pc inbox known =>
      obtain ⟨named, partialPath, path⟩ := restarted_eq s.shared.disk details
      have own := agreed.named id details known
      refine ⟨?_, ?_, nofun⟩
      · intro other here
        cases here
        rw [named, own]
        exact AList.lookup_insert _
      · intro task mem
        obtain ⟨found, look, same, same'⟩ := tasks task mem
        rcases eq_or_ne task.id id with own | differs
        · rw [own, known] at look
          cases look
          refine ⟨_, by rw [own]; exact AList.lookup_insert _, ?_, ?_⟩
          · exact partialPath.trans same
          · exact path.trans same'
        · exact ⟨found, (AList.lookup_insert_ne differs).trans look, same, same'⟩
  | unknown pc inbox unknown => exact ⟨hand, tasks, early⟩
  | done pc inbox last => exact ⟨nofun, tasks, nofun⟩
  | reply pc => exact ⟨fun details same => hand details (by rw [pc]; exact same), tasks, nofun⟩
  | push pc => exact ⟨fun details same => hand details (by rw [pc]; exact same), tasks, nofun⟩
  | @spawn details pc =>
      refine ⟨nofun, fun task mem => ?_, nofun⟩
      rcases List.mem_append.mp mem with mem | mem
      · exact tasks task mem
      · obtain rfl := List.mem_singleton.mp mem
        exact ⟨details, hand details (by rw [pc]; rfl), rfl, rfl⟩
  | unprepared pc => exact ⟨nofun, tasks, nofun⟩
  | stopped reads inbox unexpected => exact ⟨nofun, tasks, nofun⟩

theorem listed_move {action : Action} (agreed : Agreed cfg s) (listed : Listed s)
    (move : Move cfg s action s') : Listed s' := by
  cases move with
  | sender alive move =>
      obtain ⟨hand, tasks, early⟩ := listed
      cases move <;> exact ⟨hand, tasks, early⟩
  | receiver alive move => exact listed_receiver agreed listed move
  | senderExit => exact ⟨listed.hand, listed.tasks, listed.early⟩
  | receiverExit => exact ⟨listed.hand, listed.tasks, listed.early⟩
  | @task index action task task' shared' alive here move =>
      obtain ⟨hand, tasks, early⟩ := listed
      refine ⟨hand, fun other mem => ?_, fun preparing => ?_⟩
      · rcases List.mem_or_eq_of_mem_set mem with mem | rfl
        · exact tasks other mem
        · rw [WriterTask.id, move.details_eq]
          exact tasks task (List.mem_of_getElem? here)
      · rw [early preparing] at here
        cases here

theorem listed_reached (reached : (ideal cfg).Reachable s) : Listed s := by
  refine reached.invariant ?_ fun _ _ _ before listed _ next =>
    listed_move (agreed_reached before) listed (step_cases next)
  rintro _ ⟨disk, chan, rfl, rfl⟩
  exact ⟨nofun, nofun, fun _ => rfl⟩

/-! ## Runs of one empty file -/

/-- A transfer of one empty file, whose signature is the hash of no bytes. -/
def emptyFile : Config where
  manifest :=
    { directories := []
      files := AList.singleton 0 ⟨[102], 0, some [], ⟨0, [], []⟩⟩ }
  max := 1
  options := ⟨[.normal [100]], true, false, false⟩
  dirLen := fun _ => 0
  force := true
  crates := ⟨⟨fun _ _ _ _ => 0, fun _ => none⟩, fun bytes => bytes⟩

/-- A destination with nothing in it. -/
def emptyDisk : FileSystem Path where
  entries path := if path = [.normal [100]] then some .dir else none
  contents _ := []
  fresh := 0

/-- Up to the `Start` message of the file and the spawning of its writer task. -/
def startedOnce : List Action :=
  [.sender, .receiver true, .receiver true, .receiver true, .sender, .sender,
    .receiver true, .receiver true, .sender, .receiver true, .receiver true]

/-- The destination, with one byte of an earlier transfer of the file. -/
def leftoverDisk : FileSystem Path where
  entries path :=
    if path = [.normal [100]] then some .dir
    else if path = [.normal [100], .normal ([102] ++ partialSuffix)] then some (.file 0)
    else none
  contents _ := [1]
  fresh := 1

end Control

end Cccp
