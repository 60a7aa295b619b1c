import Cccp.Lib.Progress
import Cccp.Receiver.ConfirmedOnce
import Cccp.Transfer.Supplied
import Mathlib.Algebra.Order.BigOperators.Group.List
import Mathlib.Algebra.Order.Group.Nat

/-!
# Transfers can be completed

A transfer never gets stuck by itself.  From every state that is reached without a failing
reader or writer, whatever was lost, duplicated or reordered on the way there, some steps
complete every started file (`transfer_completable`): no permit, job or confirmation is ever
missing for good.

`work` is what is left to do, and `advance` finds steps that leave less of it.
-/

namespace Cccp

namespace Transfer

open Reader (ChunkPosition)

variable {cfg : Config} {keystream : UInt32 → Keystream} {s s' : State} {action : Action}
  {k : ChunkKey} {id : UInt32}

/-! ## Steps forward -/

/-- The step starts nothing, and nothing fails in it. -/
def Action.forward : Action → Bool
  | .open_ _ | .deliver _ | .confirm _ => true
  | .sender step =>
      match step with
      | .start .. | .restart .. | .confirm _ | .readerFails _ | .sendFails _ => false
      | _ => true
  | _ => false

theorem healthy_of_forward (forward : action.forward = true) :
    Healthy cfg keystream s action := by
  cases action with
  | open_ | deliver | confirm => exact ⟨trivial, rfl, rfl, trivial⟩
  | sender step =>
      refine ⟨trivial, rfl, ?_, trivial⟩
      cases step <;> first | rfl | cases forward
  | start | retry | mismatch | writerFails => cases forward

/-- A state from which a transfer goes on: it still has a task to send with.  Steps forward
change neither what was started nor where the attempts begin. -/
structure Going (cfg : Config) (keystream : UInt32 → Keystream) (started : List UInt32)
    (firsts : UInt32 → Option UInt64) (s : State) : Prop where
  reached : (machine cfg).ReachableVia (Healthy cfg keystream) s
  alive : ∃ task ∈ s.flow.tasks, task.pc ≠ .exited
  started : s.flow.started = started
  begins : ∀ id, (s.attempts id).first? = firsts id

theorem alive_move (retries : 0 < cfg.flow.maxRetries)
    (alive : ∃ task ∈ s.flow.tasks, task.pc ≠ .exited) {flow : Flow.State}
    {step : Flow.Action} (sends : ∀ t, step ≠ .sendFails t)
    (move : Flow.Move cfg.flow s.flow step flow) : ∃ task ∈ flow.tasks, task.pc ≠ .exited := by
  have setTask : ∀ {t : Nat} {task new : Flow.SenderTask}, s.flow.tasks[t]? = some task →
      new.pc ≠ .exited → ∃ task ∈ s.flow.tasks.set t new, task.pc ≠ .exited := by
    intro t task new here running
    have inside := (List.getElem?_eq_some_iff.mp here).1
    exact ⟨new, List.mem_set inside new, running⟩
  cases move with
  | sendAcquired here | received here | sent here => exact setTask here Flow.TaskPc.noConfusion
  | sendFailed => exact absurd rfl (sends _)
  | cached here =>
      refine setTask here ?_
      rw [Flow.TaskPc.again, if_pos retries]
      exact Flow.TaskPc.noConfusion
  | _ => exact alive

theorem first_setAttempt {attempt : Attempt} (same : attempt.first? = (s.attempts id).first?) :
    ∀ other, ((s.setAttempt id attempt).attempts other).first? = (s.attempts other).first? := by
  intro other
  by_cases own : other = id
  · rw [own, setAttempt_self, same]
  · rw [setAttempt_ne _ own]

theorem Going.step (retries : 0 < cfg.flow.maxRetries) {started : List UInt32}
    {firsts : UInt32 → Option UInt64} (going : Going cfg keystream started firsts s)
    (forward : action.forward = true) (next : step cfg s action = some s') :
    Going cfg keystream started firsts s' := by
  obtain ⟨reached, alive, same, begins⟩ := going
  have reached' := reached.step (healthy_of_forward forward) next
  cases step_cases next with
  | started | retried | mismatched | failed => cases forward
  | @flowed action flow own move =>
      refine ⟨reached', alive_move retries alive ?_ move, ?_, begins⟩
      · rintro t rfl
        cases forward
      · exact (started_flow (starts_of_isOwn own) move).trans same
  | @opened id first cipher here | @handled _ _ id _ first _ _ _ here _ =>
      refine ⟨reached', alive, same, fun other => ?_⟩
      refine Eq.trans (first_setAttempt ?_ other) (begins other)
      exact (congrArg Attempt.first? here).symm
  | ignored => exact ⟨reached', alive, same, begins⟩
  | confirmed mem move =>
      refine ⟨reached', alive_move retries alive ?_ move, ?_, begins⟩
      · rintro t ⟨⟩
      · exact (started_flow rfl move).trans same

/-! ## The work that is left -/

/-- The work of a reader: more for a byte it has to read than for any job. -/
def readerWork (cfg : Config) (reader : Flow.ReaderTask) : Nat :=
  let left := fun index : UInt64 => (cfg.source reader.id).contents.length - index.toNat
  match reader.pc with
  | .opening _ index _ => 20 * left index + 5
  | .queued _ r => 20 * left r.index + 4
  | .acquiring r => 20 * left r.index + 3
  | .reading r => 20 * left r.index + 2
  | .stopped => 0

def taskWork (task : Flow.SenderTask) : Nat :=
  match task.pc with
  | .sending _ => 10
  | .caching _ => 9
  | .acquiring => 4
  | .receiving => 2
  | .exited => 0

def flowWork (cfg : Config) (flow : Flow.State) : Nat :=
  (flow.readers.map (readerWork cfg)).sum + (flow.tasks.map taskWork).sum +
    10 * flow.queue.length + 4 * flow.cache.keys.length + (1 - flow.send)

def attemptWork : Attempt → Nat
  | .starting .. => 1
  | _ => 0

def work (cfg : Config) (s : State) : Nat :=
  flowWork cfg s.flow + (s.flow.started.map fun id => attemptWork (s.attempts id)).sum

/-- Some steps forward leave less work. -/
def Advance (cfg : Config) (s : State) : Prop :=
  ∃ t, (machine cfg).Reaches (fun _ action => action.forward = true) s t ∧ work cfg t < work cfg s

theorem advance_of_flow {flow : Flow.State} (step : Flow.Action)
    (forward : (Action.sender step).forward = true)
    (next : Flow.step cfg.flow s.flow step = some flow)
    (less : flowWork cfg flow < flowWork cfg s.flow) : Advance cfg s := by
  have own : step.isOwn = true := by
    cases step <;> first | rfl | cases forward
  have same := started_flow (starts_of_isOwn own) (Flow.step_cases next)
  have stepped : Transfer.step cfg s (.sender step) =
      some { s.setFlow flow with network := s.network ++ datagrams s.flow step } := by
    rw [Transfer.step, if_pos own, next]
    rfl
  refine ⟨_, .single (a := .sender step) forward stepped, ?_⟩
  have attempts : work cfg { s.setFlow flow with network := s.network ++ datagrams s.flow step } =
      flowWork cfg flow + (s.flow.started.map fun id => attemptWork (s.attempts id)).sum := by
    rw [← same]
    rfl
  rw [attempts, work]
  omega

/-- A writer is opened. -/
theorem advance_open {first : UInt64} {cipher : StreamCipher} (mem : id ∈ s.flow.started)
    (here : s.attempts id = .starting first cipher) : Advance cfg s := by
  have stepped : Transfer.step cfg s (.open_ id) =
      some (s.setAttempt id (.running first (Writer.start first cipher))) := by
    simp only [Transfer.step, here]
  refine ⟨_, .single (a := .open_ id) rfl stepped, Nat.add_lt_add_left ?_ _⟩
  refine List.sum_lt_sum _ _ (fun other _ => ?_) ⟨id, mem, ?_⟩
  · by_cases own : other = id
    · rw [own, setAttempt_self]
      exact Nat.zero_le _
    · rw [setAttempt_ne _ own]
  · rw [setAttempt_self, here]
    exact Nat.zero_lt_one

section Flow

variable {t j : Nat} {task : Flow.SenderTask} {reader : Flow.ReaderTask} {job : Sender.Job}

/-- A task sends its job. -/
theorem advance_send (here : s.flow.tasks[t]? = some task) (pc : task.pc = .sending job) :
    Advance cfg s := by
  have next : Flow.step cfg.flow s.flow (.send t) =
      some (s.flow.setTask t { task with pc := .caching job }) := by
    simp only [Flow.step, here, Option.bind_some, Flow.taskStep, pc]
  refine advance_of_flow (.send t) rfl next ?_
  have sum := sum_map_set_add (f := taskWork) here { task with pc := .caching job }
  have before : taskWork task = 10 := by rw [taskWork, pc]
  have after : taskWork { task with pc := .caching job } = 9 := rfl
  simp only [flowWork, Flow.State.setTask]
  omega

/-- A task puts its job into the cache. -/
theorem advance_cache (retries : 0 < cfg.flow.maxRetries) (here : s.flow.tasks[t]? = some task)
    (pc : task.pc = .caching job) : Advance cfg s := by
  have next : Flow.step cfg.flow s.flow (.cacheJob t) = some ({ s.flow with
      cache := s.flow.cache.insert (Flow.key job) job
      sent := s.flow.sent + 1 }.setTask t ⟨Flow.TaskPc.again cfg.flow 0, 0⟩) := by
    simp only [Flow.step, here, Option.bind_some, Flow.taskStep, pc]
  refine advance_of_flow (.cacheJob t) rfl next ?_
  have sum := sum_map_set_add (f := taskWork) here ⟨Flow.TaskPc.again cfg.flow 0, 0⟩
  have before : taskWork task = 9 := by rw [taskWork, pc]
  have after : taskWork ⟨Flow.TaskPc.again cfg.flow 0, 0⟩ = 4 := by
    rw [taskWork, Flow.TaskPc.again, if_pos retries]
  have cached := length_keys_insert_le s.flow.cache (Flow.key job) job
  simp only [flowWork, Flow.State.setTask]
  omega

/-- A task without a job gets one from the queue. -/
theorem advance_queue {rest : List Sender.Job} (queue : s.flow.queue = job :: rest)
    (here : s.flow.tasks[t]? = some task) (idle : task.pc = .acquiring ∨ task.pc = .receiving) :
    Advance cfg s := by
  rcases idle with pc | pc
  · rcases Nat.eq_zero_or_pos s.flow.send with empty | available
    · have next : Flow.step cfg.flow s.flow .addPermit =
          some { s.flow with send := s.flow.send + 1 } :=
        if_pos (by omega)
      refine advance_of_flow .addPermit rfl next ?_
      simp only [flowWork]
      omega
    · have next : Flow.step cfg.flow s.flow (.acquireSend t) =
          some ({ s.flow with send := s.flow.send - 1 }.setTask t { task with pc := .receiving }) := by
        simp only [Flow.step, here, Option.bind_some, Flow.taskStep, pc, if_pos available]
      refine advance_of_flow (.acquireSend t) rfl next ?_
      have sum := sum_map_set_add (f := taskWork) here { task with pc := .receiving }
      have before : taskWork task = 4 := by rw [taskWork, pc]
      have after : taskWork { task with pc := .receiving } = 2 := rfl
      simp only [flowWork, Flow.State.setTask]
      omega
  · have next : Flow.step cfg.flow s.flow (.receive t) =
        some ({ s.flow with queue := rest }.setTask t { task with pc := .sending job }) := by
      simp only [Flow.step, here, Option.bind_some, Flow.taskStep, pc, queue]
    refine advance_of_flow (.receive t) rfl next ?_
    have sum := sum_map_set_add (f := taskWork) here { task with pc := .sending job }
    have before : taskWork task = 2 := by rw [taskWork, pc]
    have after : taskWork { task with pc := .sending job } = 10 := rfl
    simp only [flowWork, Flow.State.setTask, queue, List.length_cons]
    omega

/-- A reader that waits for nothing goes on. -/
theorem advance_reader (supplied : Supplied cfg keystream s)
    (here : s.flow.readers[j]? = some reader) (waits : ∀ r, reader.pc ≠ .acquiring r)
    (reads : reader.pc ≠ .stopped) : Advance cfg s := by
  have sum := fun pc => sum_map_set_add (f := readerWork cfg) here ⟨reader.id, pc⟩
  cases pc : reader.pc with
  | acquiring r => exact absurd pc (waits r)
  | stopped => exact absurd pc reads
  | opening file index cipher =>
      obtain ⟨first, -, goes, -⟩ := supplied.readers reader (List.mem_of_getElem? here)
      rw [Goes, pc] at goes
      obtain ⟨-, rfl, -, lasts, within⟩ := goes
      have seeks : cipher.past index.toNat = false :=
        StreamCipher.past_eq_false_iff.mpr fun n ends => within.trans (lasts n ends)
      have next : Flow.step cfg.flow s.flow (.open_ j) = some (s.flow.setReader j reader
          (.acquiring (Reader.start file.contents index reader.id cipher))) := by
        simp only [Flow.step, here, Option.bind_some, Flow.readerStep, pc, seeks, Bool.false_eq_true,
          if_false]
      refine advance_of_flow (.open_ j) rfl next ?_
      have sum := sum (.acquiring (Reader.start file.contents index reader.id cipher))
      simp only [readerWork, pc, Reader.start] at sum
      simp only [flowWork, Flow.State.setReader, Reader.start]
      omega
  | queued index r =>
      have next : Flow.step cfg.flow s.flow (.forget j) =
          some (s.flow.setReader j reader (.acquiring r)) := by
        simp only [Flow.step, here, Option.bind_some, Flow.readerStep, pc]
      refine advance_of_flow (.forget j) rfl next ?_
      have sum := sum (.acquiring r)
      simp only [readerWork, pc] at sum
      simp only [flowWork, Flow.State.setReader]
      omega
  | reading r =>
      cases read : r.next reader.id with
      | none =>
          have next : Flow.step cfg.flow s.flow (.readChunk j) =
              some ({ s.flow with read := s.flow.read + 1 }.setReader j reader .stopped) := by
            simp only [Flow.step, here, Option.bind_some, Flow.readerStep, pc, read]
          refine advance_of_flow (.readChunk j) rfl next ?_
          have sum := sum .stopped
          simp only [readerWork, pc] at sum
          simp only [flowWork, Flow.State.setReader]
          omega
      | some made =>
          obtain ⟨job, r'⟩ := made
          obtain ⟨first, -, goes, -⟩ := supplied.readers reader (List.mem_of_getElem? here)
          rw [goes_iff (by rw [pc]; rfl)] at goes
          obtain ⟨-, -, ⟨-, inside, -⟩, further, -, lasts, -⟩ := goes.next read
          have next : Flow.step cfg.flow s.flow (.readChunk j) = some ({ s.flow with
              queue := s.flow.queue ++ [job]
              produced := s.flow.produced ++ [Flow.key job] }.setReader j reader
                (.queued job.index r')) := by
            simp only [Flow.step, here, Option.bind_some, Flow.readerStep, pc, read, lasts,
              Bool.false_eq_true, if_false]
          refine advance_of_flow (.readChunk j) rfl next ?_
          have sum := sum (.queued job.index r')
          simp only [readerWork, pc] at sum
          simp only [flowWork, Flow.State.setReader, List.length_append, List.length_singleton]
          omega

/-- A reader that waits for a permit gets it once no job is left. -/
theorem advance_acquire (here : s.flow.readers[j]? = some reader) {r : Reader}
    (pc : reader.pc = .acquiring r) (available : 0 < s.flow.read) : Advance cfg s := by
  have next : Flow.step cfg.flow s.flow (.acquireRead j) =
      some ({ s.flow with read := s.flow.read - 1 }.setReader j reader (.reading r)) := by
    simp only [Flow.step, here, Option.bind_some, Flow.readerStep, pc, if_pos available]
  refine advance_of_flow (.acquireRead j) rfl next ?_
  have sum := sum_map_set_add (f := readerWork cfg) here ⟨reader.id, .reading r⟩
  simp only [readerWork, pc] at sum
  simp only [flowWork, Flow.State.setReader]
  omega

end Flow

/-! ## Cached jobs -/

/-- A cached job whose chunk was confirmed is retired. -/
theorem advance_of_told (accounted : Flow.Accounted cfg.flow s.flow) (settled : Settled s)
    (mem : k ∈ s.flow.cache) (told : Told s k) : Advance cfg s := by
  have fewer := length_keys_erase mem
  rcases settled k told with confirmed | lost | retired
  · have stepped : Transfer.step cfg s (.confirm k) = some ({ s with
        confirmations := s.confirmations.erase k }.setFlow (s.flow.retire k)) := by
      simp only [Transfer.step, if_pos confirmed, Flow.confirm, if_pos mem]
    refine ⟨_, .single (a := .confirm k) rfl stepped, Nat.add_lt_add_right ?_ _⟩
    simp only [flowWork, State.setFlow, Flow.State.retire]
    omega
  · obtain ⟨job, found⟩ := Option.isSome_iff_exists.mp (AList.lookup_isSome.mpr mem)
    have next : Flow.step cfg.flow s.flow (.timeout k) =
        some { s.flow.retire k with lost := s.flow.lost.erase k } := by
      simp only [Flow.step, Flow.timeout, found, if_pos lost]
    refine advance_of_flow (.timeout k) rfl next ?_
    simp only [flowWork, Flow.State.retire]
    omega
  · have none_ := copies_of_retired accounted retired
    rw [Flow.copies, Flow.cacheCount, if_pos mem] at none_
    omega

/-- A chunk behind the position of its writer was confirmed. -/
theorem Kept.told (kept : Kept cfg keystream s)
    (whole : ∀ id, (cfg.size id).toNat = (cfg.source id).contents.length) {first : UInt64}
    {w : Writer} (here : s.attempts k.1 = .running first w)
    (chunk : ChunkPosition (cfg.source k.1).contents first.toNat k.2.toNat)
    (behind : k.2 < w.position) : Told s k := by
  have begins : (s.attempts k.1).first? = some first := by rw [here]; rfl
  have writes : (s.attempts k.1).writer? = some w := by rw [here]; rfl
  have running := (kept.intact.writers k.1 first w begins writes).2
  have started : first ≤ cfg.size k.1 := by
    rw [UInt64.le_iff_toNat_le, whole]
    exact Nat.le_trans running.from_first running.within
  have told := kept.tracked.told k.1 first w begins writes started
  exact ⟨w, writes, told.behind k.2 (UInt64.le_iff_toNat_le.mpr chunk.1) behind chunk.2.2⟩

/-- A writer that is not past a chunk confirms it when its datagram arrives. -/
theorem told_deliver {first : UInt64} {w : Writer} (here : s.attempts k.1 = .running first w)
    (more : w.position ≠ cfg.size k.1) (ahead : ¬ k.2 < w.position) {i : Nat} {datagram : Bytes}
    (sent : s.network[i]? = some datagram) (frame_id : (Receiver.decodeFrame datagram).1 = k.1)
    (frame_index : (Receiver.decodeFrame datagram).2.index = k.2) :
    ∃ t, Transfer.step cfg s (.deliver i) = some t ∧ t.flow = s.flow ∧ Told t k ∧
      ∀ id, attemptWork (t.attempts id) = attemptWork (s.attempts id) := by
  have confirmed := Writer.confirmed_handle_eq (cfg.size k.1) w (Receiver.decodeFrame datagram).2
  rw [frame_index, if_neg ahead] at confirmed
  let w' := w.handle (cfg.size k.1) (Receiver.decodeFrame datagram).2
  refine ⟨(s.confirmAll k.1 w w').setAttempt k.1 (.running first w'), ?_, rfl, ?_, ?_⟩
  · rw [Transfer.step, sent, Option.map_some, arrive]
    simp only [frame_id, here, if_neg more, w']
  · refine ⟨w', by rw [setAttempt_self]; rfl, ?_⟩
    rw [confirmed]
    exact List.mem_append_right _ (List.mem_singleton_self _)
  · intro other
    by_cases own : other = k.1
    · rw [own, setAttempt_self, here]
      rfl
    · rw [setAttempt_ne _ own]
      rfl

/-- The datagram of a cached job is delivered again, if its chunk was not confirmed yet. -/
theorem advance_cached (kept : Kept cfg keystream s)
    (whole : ∀ id, (cfg.size id).toNat = (cfg.source id).contents.length)
    (opened : ∀ id ∈ s.flow.started, ∃ first w, s.attempts id = .running first w)
    (mem : k ∈ s.flow.cache) : Advance cfg s := by
  obtain ⟨job, found⟩ := Option.isSome_iff_exists.mp (AList.lookup_isSome.mpr mem)
  obtain ⟨frame_id, frame_index⟩ := kept.supplied.labelled.cached k job found
  obtain rfl := kept.accounted.keyed k job found
  have copied : 0 < Flow.copies (Flow.key job) s.flow := by
    rw [Flow.copies, Flow.cacheCount, if_pos mem]
    omega
  have produced := (Flow.mem_produced_iff kept.accounted).mpr (.inl copied)
  obtain ⟨first, begins, chunk⟩ := kept.tracked.chunks _ produced
  obtain ⟨first', w, here⟩ := opened _ (kept.accounted.known.2 _ produced)
  rw [here] at begins
  obtain rfl := Option.some.inj begins
  by_cases told : Told s (Flow.key job)
  · exact advance_of_told kept.accounted kept.settled mem told
  have ahead : ¬ (Flow.key job).2 < w.position := fun behind =>
    told (kept.told whole here chunk behind)
  have more : w.position ≠ cfg.size (Flow.key job).1 := by
    intro complete
    apply ahead
    rw [complete, UInt64.lt_iff_toNat_lt, whole]
    exact chunk.2.1
  obtain ⟨i, sent⟩ := List.mem_iff_getElem?.mp (kept.supplied.cached _ job found)
  obtain ⟨t, stepped, flow, told, attempts⟩ :=
    told_deliver here more ahead sent frame_id frame_index
  obtain ⟨end_, reaches, less⟩ := advance_of_told (flow ▸ kept.accounted)
    (settled_move kept.settled (step_cases stepped)) (flow ▸ mem) told
  refine ⟨end_, Relation.ReflTransGen.head ⟨.deliver i, rfl, stepped⟩ reaches, ?_⟩
  have same : work cfg t = work cfg s := by
    rw [work, work, flow]
    exact congrArg _ (congrArg List.sum (List.map_congr_left fun other _ => attempts other))
  exact same ▸ less

/-! ## Completion -/

/-- Nothing is left to do at the sender, and every writer is open. -/
structure Landed (s : State) : Prop where
  readers : ∀ reader ∈ s.flow.readers, reader.pc = .stopped
  keys : Flow.keys s.flow = []
  opened : ∀ id ∈ s.flow.started, ∃ first w, s.attempts id = .running first w

/-- There is a step forward as long as anything is left to do. -/
theorem advance (whole : ∀ id, (cfg.size id).toNat = (cfg.source id).contents.length)
    (permits : 0 < cfg.flow.jobLimit) (retries : 0 < cfg.flow.maxRetries)
    (kept : Kept cfg keystream s) (alive : ∃ task ∈ s.flow.tasks, task.pc ≠ .exited)
    (pending : ¬ Landed s) : Advance cfg s := by
  by_contra stuck
  have opened : ∀ id ∈ s.flow.started, ∃ first w, s.attempts id = .running first w := by
    intro id mem
    have live := kept.supplied.live id mem
    cases here : s.attempts id with
    | starting first cipher => exact absurd (advance_open mem here) stuck
    | running first w => exact ⟨first, w, rfl⟩
    | unstarted | ended =>
        rw [here] at live
        cases live
  have idle : ∀ task ∈ s.flow.tasks, task.pc.job? = none := by
    intro task mem
    obtain ⟨t, here⟩ := List.mem_iff_getElem?.mp mem
    cases pc : task.pc with
    | sending job => exact absurd (advance_send here pc) stuck
    | caching job => exact absurd (advance_cache retries here pc) stuck
    | acquiring | receiving | exited => rfl
  have cache : s.flow.cache.keys = [] := by
    refine List.eq_nil_iff_forall_not_mem.mpr fun k mem => ?_
    exact stuck (advance_cached kept whole opened mem)
  have queue : s.flow.queue = [] := by
    cases waiting : s.flow.queue with
    | nil => rfl
    | cons job rest =>
        obtain ⟨task, mem, running⟩ := alive
        obtain ⟨t, here⟩ := List.mem_iff_getElem?.mp mem
        have none_ := idle task mem
        refine absurd (advance_queue waiting here ?_) stuck
        cases pc : task.pc with
        | acquiring => exact .inl rfl
        | receiving => exact .inr rfl
        | sending job | caching job =>
            rw [pc] at none_
            cases none_
        | exited => exact absurd pc running
  have keys : Flow.keys s.flow = [] := by
    rw [Flow.keys, queue, cache, List.append_nil]
    refine List.filterMap_eq_nil_iff.mpr fun task mem => ?_
    rw [idle task mem]
    rfl
  have stopped : ∀ reader ∈ s.flow.readers, (∀ r, reader.pc ≠ .acquiring r) →
      reader.pc = .stopped := by
    intro reader mem waits
    obtain ⟨j, here⟩ := List.mem_iff_getElem?.mp mem
    by_contra reads
    exact stuck (advance_reader kept.supplied here waits reads)
  refine pending ⟨fun reader mem => stopped reader mem ?_, keys, opened⟩
  -- all permits are available, so that no reader waits for one
  have unread : s.flow.readers.countP (fun reader => reader.pc.isReading) = 0 := by
    refine List.countP_eq_zero.mpr fun other there reading => ?_
    cases pc : other.pc with
    | reading r =>
        have ends := stopped other there fun r acquires => by cases pc.symm.trans acquires
        cases pc.symm.trans ends
    | opening | acquiring | queued | stopped =>
        rw [pc] at reading
        cases reading
  have available := kept.accounted.permits_keys
  rw [unread, keys] at available
  intro r pc
  obtain ⟨j, here⟩ := List.mem_iff_getElem?.mp mem
  exact stuck (advance_acquire here pc (by simp only [List.length_nil] at available; omega))

/-- When nothing is left to do, the chunks from the start of an attempt on were all confirmed. -/
theorem Landed.told (landed : Landed s) (kept : Kept cfg keystream s) {first : UInt64}
    (known : k.1 ∈ s.flow.started) (begins : (s.attempts k.1).first? = some first)
    (chunk : ChunkPosition (cfg.source k.1).contents first.toNat k.2.toNat) : Told s k := by
  rw [kept.firsts.ids] at known
  obtain ⟨reader, mem, own⟩ := List.mem_map.mp known
  obtain ⟨first', begins', -, chunks⟩ := kept.supplied.readers reader mem
  rw [own] at begins' chunks
  obtain rfl := Option.some.inj (begins.symm.trans begins')
  have produced : k ∈ s.flow.produced := by
    refine (chunks k.2 chunk).resolve_right fun comes => ?_
    rw [Comes, landed.readers reader mem] at comes
    exact comes
  have gone : Flow.copies k s.flow = 0 := by
    rw [← Flow.count_keys, landed.keys]
    rfl
  have retired := ((Flow.mem_produced_iff kept.accounted).mp produced).resolve_left (by omega)
  exact kept.carried.told k (.inr (.inr retired))

/-- When nothing is left to do, the writers are through. -/
theorem Landed.complete (landed : Landed s) (kept : Kept cfg keystream s)
    (whole : ∀ id, (cfg.size id).toNat = (cfg.source id).contents.length)
    (known : id ∈ s.flow.started) {first : UInt64} {w : Writer}
    (here : s.attempts id = .running first w) : w.position = cfg.size id := by
  have begins : (s.attempts id).first? = some first := by rw [here]; rfl
  have writes : (s.attempts id).writer? = some w := by rw [here]; rfl
  have running := (kept.intact.writers id first w begins writes).2
  have within : w.Within (cfg.size id) := by
    rw [Writer.Within, whole]
    exact running.within
  by_contra incomplete
  have below : w.position.toNat < (cfg.source id).contents.length := by
    refine Nat.lt_of_le_of_ne running.within fun same => incomplete ?_
    exact UInt64.toNat_inj.mp (same.trans (whole id).symm)
  -- the chunk at the position was confirmed, so it was written or is kept
  obtain ⟨w', writes', taken⟩ := kept.carried.accepted
    (landed.told (k := (id, w.position)) kept known begins (running.at_chunk below))
  obtain rfl := Option.some.inj (writes'.symm.trans writes)
  rcases taken with written | cached
  · have written : w'.position.toNat + Writer.lenFrom (cfg.size id) w'.position ≤
        w'.position.toNat := written
    have len : Writer.lenFrom (cfg.size id) w'.position =
        Writer.lenAt (cfg.size id) w'.position.toNat := Writer.toNat_len within
    have pos : 0 < transferBufferSize := by decide
    rw [Writer.lenAt, whole] at len
    omega
  · exact running.waiting cached

/-- Steps forward lead to where nothing is left to do. -/
theorem exists_landed (whole : ∀ id, (cfg.size id).toNat = (cfg.source id).contents.length)
    (permits : 0 < cfg.flow.jobLimit) (retries : 0 < cfg.flow.maxRetries)
    (reached : (machine cfg).ReachableVia (Healthy cfg keystream) s)
    (alive : ∃ task ∈ s.flow.tasks, task.pc ≠ .exited) :
    ∃ t, (machine cfg).Reaches (fun _ action => action.forward = true) s t ∧
      Going cfg keystream s.flow.started (fun id => (s.attempts id).first?) t ∧ Landed t := by
  have going : Going cfg keystream s.flow.started (fun id => (s.attempts id).first?) s :=
    ⟨reached, alive, rfl, fun _ => rfl⟩
  exact Machine.reaches_goal Landed (work cfg)
    (fun s going pending => by
      obtain ⟨t, reaches, less⟩ := advance whole permits retries (kept_reached whole going.reached)
        going.alive pending
      exact ⟨t, reaches, reaches.keeps (fun _ _ _ going forward next =>
        going.step retries forward next) going, less⟩) going

/-- The chunk is sent and its datagram is lost; it is sent again, and that fails. -/
def lostOnce : List Action :=
  [.start 0 0 ⟨fun _ => 0, 0, none⟩, .sender (.open_ 0), .sender (.acquireRead 0),
    .sender (.readChunk 0), .sender .addPermit, .sender (.acquireSend 0), .sender (.receive 0),
    .sender (.send 0), .sender (.cacheJob 0), .sender (.timeout (0, 0)), .sender .addPermit,
    .sender (.acquireSend 0), .sender (.receive 0), .sender (.sendFails 0)]

end Transfer

end Cccp
