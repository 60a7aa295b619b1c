import Cccp.Lib.Collections
import Cccp.Lib.Counting
import Cccp.Sender.Flow

/-!
# Every permit is accounted for

A read permit is taken before a chunk is read, forgotten after its job was queued, and
given back when the job leaves the cache for good.  `Accounted` says where the jobs and
the permits are; every step keeps it, as long as an id is only started again when nothing
is left of its earlier attempt (`accounted_reached`).

`permits_conserved` is the balance for a transfer that starts every id once.
-/

namespace Cccp

namespace Flow

/-! ## Where the jobs are -/

def TaskPc.job? : TaskPc → Option Sender.Job
  | .sending job | .caching job => some job
  | _ => none

def SenderTask.holds (k : ChunkKey) (task : SenderTask) : Bool :=
  task.pc.job?.any fun job => decide (key job = k)

def cacheCount (k : ChunkKey) (cache : HashMap ChunkKey Sender.Job) : Nat :=
  if k ∈ cache then 1 else 0

/-- The copies of a job in the queue, in a sender task's hands and in the cache. -/
def copies (k : ChunkKey) (s : State) : Nat :=
  s.queue.countP (fun job => decide (key job = k)) + s.tasks.countP (SenderTask.holds k) +
    cacheCount k s.cache

/-- The keys of all jobs in memory. -/
def keys (s : State) : List ChunkKey :=
  s.queue.map key ++ s.tasks.filterMap (fun task => task.pc.job?.map key) ++ s.cache.keys

theorem count_keys (k : ChunkKey) (s : State) : (keys s).count k = copies k s := by
  have queued : (s.queue.map key).count k = s.queue.countP fun job => decide (key job = k) := by
    rw [List.count_eq_countP, List.countP_map]
    exact List.countP_congr fun job _ => by simp
  have held : (s.tasks.filterMap fun task => task.pc.job?.map key).count k =
      s.tasks.countP (SenderTask.holds k) := by
    rw [List.count_eq_countP, List.countP_filterMap]
    refine List.countP_congr fun task _ => ?_
    rw [SenderTask.holds]
    cases task.pc.job? <;> simp
  have cached : s.cache.keys.count k = cacheCount k s.cache := by
    rw [cacheCount, List.Nodup.count s.cache.keys_nodup]
    simp only [AList.mem_keys]
  rw [keys, List.count_append, List.count_append, queued, held, cached, copies]

/-! ## Where the readers are -/

def ReaderPc.isReading : ReaderPc → Bool
  | .reading _ => true
  | _ => false

def ReaderPc.reader? : ReaderPc → Option Reader
  | .acquiring r | .reading r | .queued _ r => some r
  | _ => none

/-- The reader has not come to the end of its file. -/
def ReaderTask.active (reader : ReaderTask) : Bool :=
  match reader.pc with
  | .opening file index cipher =>
      ((Reader.start file.contents index reader.id cipher).next reader.id).isSome
  | .stopped => false
  | .acquiring r | .reading r | .queued _ r => (r.next reader.id).isSome

def isActive (id : UInt32) (reader : ReaderTask) : Bool :=
  decide (reader.id = id) && reader.active

/-- The reader goes through a file. -/
def ReaderTask.Sound (reader : ReaderTask) : Prop :=
  ∀ r, reader.pc.reader? = some r →
    ∃ file first, file.length < 2 ^ 64 ∧ r.Walks file first reader.id

/-- The reader is past the chunks of its id that were queued. -/
def ReaderTask.Ahead (produced : List ChunkKey) (reader : ReaderTask) : Prop :=
  ∀ k ∈ produced, k.1 = reader.id → ∃ r, reader.pc.reader? = some r ∧ k.2 < r.index

/-- Where the jobs, the readers and the permits are. -/
structure Accounted (cfg : Config) (s : State) : Prop where
  once : s.produced.Nodup
  counts : ∀ k, copies k s + s.retired.count k = s.produced.count k
  permits : s.read + s.readers.countP (fun reader => reader.pc.isReading) + s.produced.length =
    cfg.jobLimit + s.retired.length
  total : s.confirmed = s.retired.length + s.earlier
  keyed : ∀ k job, s.cache.lookup k = some job → key job = k
  sound : ∀ reader ∈ s.readers, reader.Sound
  ahead : ∀ reader ∈ s.readers, reader.active = true → reader.Ahead s.produced
  single : ∀ id, s.readers.countP (isActive id) ≤ 1
  known : (∀ reader ∈ s.readers, reader.id ∈ s.started) ∧ ∀ k ∈ s.produced, k.1 ∈ s.started

variable {cfg : Config} {s s' : State} {action : Action} {k : ChunkKey}

theorem accounted_init : Accounted cfg (initial cfg) where
  once := List.nodup_nil
  counts k := by
    have idle : (initial cfg).tasks.countP (SenderTask.holds k) = 0 := by
      refine List.countP_eq_zero.mpr fun task mem holds => ?_
      obtain rfl := (List.mem_replicate.mp mem).2
      rw [SenderTask.holds, TaskPc.again] at holds
      split at holds <;> cases holds
    rw [copies, idle]
    rfl
  permits := rfl
  total := rfl
  keyed := nofun
  sound := nofun
  ahead := nofun
  single _ := Nat.zero_le _
  known := ⟨nofun, nofun⟩

/-- There is at most one copy of a job. -/
theorem Accounted.copies_le (accounted : Accounted cfg s) (k : ChunkKey) : copies k s ≤ 1 := by
  have bound := List.nodup_iff_count_le_one.mp accounted.once k
  have counts := accounted.counts k
  omega

theorem mem_produced_iff (accounted : Accounted cfg s) :
    k ∈ s.produced ↔ 0 < copies k s ∨ k ∈ s.retired := by
  have counts := accounted.counts k
  rw [← List.count_pos_iff, ← List.count_pos_iff]
  omega

/-- What a sender task is about to cache is not in the cache. -/
theorem Accounted.not_mem_cache (accounted : Accounted cfg s) {t : Nat} {task : SenderTask}
    {job : Sender.Job} (here : s.tasks[t]? = some task) (holds : task.pc.job? = some job) :
    key job ∉ s.cache := by
  intro mem
  have held : 0 < s.tasks.countP (SenderTask.holds (key job)) := by
    refine List.countP_pos_iff.mpr ⟨task, List.mem_of_getElem? here, ?_⟩
    rw [SenderTask.holds, holds]
    exact decide_eq_true rfl
  have few := accounted.copies_le (key job)
  rw [copies, cacheCount, if_pos mem] at few
  omega

/-! ## Steps of the readers -/

theorem active_iff {reader : ReaderTask} {r : Reader} (same : reader.pc.reader? = some r) :
    reader.active = (r.next reader.id).isSome := by
  unfold ReaderTask.active
  cases pc : reader.pc <;> rw [pc] at same <;> cases same <;> rfl

/-- A reader goes on without queueing a job. -/
theorem Accounted.setReader (accounted : Accounted cfg s) {j : Nat} {reader : ReaderTask}
    (here : s.readers[j]? = some reader) (read : Nat) (pc : ReaderPc)
    (permits : read + (if pc.isReading then 1 else 0) =
      s.read + if reader.pc.isReading then 1 else 0)
    (active : ReaderTask.active ⟨reader.id, pc⟩ = true → reader.active = true)
    (same : pc = .stopped ∨ pc.reader? = reader.pc.reader? ∨
      reader.pc.reader? = none ∧ ReaderTask.Sound ⟨reader.id, pc⟩) :
    Accounted cfg ({ s with read := read }.setReader j reader pc) := by
  have mem := List.mem_of_getElem? here
  have counted := @countP_set_add _ (fun reader : ReaderTask => reader.pc.isReading) _ _ _ here
    { reader with pc := pc }
  dsimp only at counted
  have single : ∀ id, (s.readers.set j { reader with pc := pc }).countP (isActive id) ≤ 1 := by
    intro id
    have few := accounted.single id
    have set := @countP_set_add _ (isActive id) _ _ _ here { reader with pc := pc }
    have fewer : isActive id ⟨reader.id, pc⟩ = true → isActive id reader = true := by
      intro both
      obtain ⟨own, live⟩ := Bool.and_eq_true_iff.mp both
      exact Bool.and_eq_true_iff.mpr ⟨own, active live⟩
    split at set <;> split at set <;> first | omega | (exfalso; simp_all)
  obtain ⟨once, counts, permits', total, keyed, sound, ahead, -, known⟩ := accounted
  refine ⟨once, counts, ?_, total, keyed, ?_, ?_, single, ?_, known.2⟩
  · simp only [State.setReader]
    omega
  · intro other mem'
    rcases List.mem_or_eq_of_mem_set mem' with mem' | rfl
    · exact sound other mem'
    · rcases same with rfl | same | ⟨-, new⟩
      · exact nofun
      · intro r held
        exact sound reader mem r (same.symm.trans held)
      · exact new
  · intro other mem' live
    rcases List.mem_or_eq_of_mem_set mem' with mem' | rfl
    · exact ahead other mem' live
    · intro k there own
      obtain ⟨r, held, past⟩ := ahead reader mem (active live) k there own
      rcases same with rfl | same | ⟨none_, -⟩
      · cases live
      · exact ⟨r, same.trans held, past⟩
      · exact absurd (none_.symm.trans held) nofun
  · intro other mem'
    rcases List.mem_or_eq_of_mem_set mem' with mem' | rfl
    · exact known.1 other mem'
    · exact known.1 reader mem

/-- A reader queues the job of a chunk. -/
theorem Accounted.produce (accounted : Accounted cfg s) {j : Nat} {reader : ReaderTask}
    {r r' : Reader} {job : Sender.Job} (here : s.readers[j]? = some reader)
    (pc : reader.pc = .reading r) (next : r.next reader.id = some (job, r')) :
    Accounted cfg ({ s with queue := s.queue ++ [job], produced := s.produced ++ [key job]
      }.setReader j reader (.queued job.index r')) := by
  have mem := List.mem_of_getElem? here
  have held : reader.pc.reader? = some r := by rw [pc]; rfl
  obtain ⟨file, first, fits, walks⟩ := accounted.sound reader mem r held
  obtain ⟨job_id, index, past, -, -, walks'⟩ := walks.next fits next
  have live : reader.active = true := by
    rw [active_iff held, next]
    rfl
  have fresh : key job ∉ s.produced := by
    intro there
    obtain ⟨other, held', below⟩ := accounted.ahead reader mem live _ there job_id
    cases held.symm.trans held'
    have below : job.index < r.index := below
    rw [index] at below
    exact absurd below (UInt64.lt_irrefl _)
  have counted := @countP_set_add _ (fun reader : ReaderTask => reader.pc.isReading) _ _ _ here
    ⟨reader.id, .queued job.index r'⟩
  dsimp only at counted
  rw [pc, if_pos (show (ReaderPc.reading r).isReading = true from rfl),
    if_neg (show ¬ (ReaderPc.queued job.index r').isReading = true from Bool.false_ne_true)]
    at counted
  have alone : ∀ i other, i ≠ j → s.readers[i]? = some other → other.id = reader.id →
      other.active = false := by
    intro i other apart there own
    rw [← Bool.not_eq_true]
    intro live'
    have two := @two_le_countP _ (isActive reader.id) _ _ _ _ _ apart there here
      (by simp [isActive, own, live']) (by simp [isActive, live])
    have few := accounted.single reader.id
    omega
  obtain ⟨once, counts, permits, total, keyed, sound, ahead, single, known⟩ := accounted
  refine ⟨?_, ?_, ?_, total, keyed, ?_, ?_, ?_, ?_, ?_⟩
  · exact List.nodup_append.mpr ⟨once, List.nodup_singleton _, by
      rintro k mem' _ new rfl
      exact fresh (List.mem_singleton.mp new ▸ mem')⟩
  · intro k
    have before := counts k
    simp only [copies, State.setReader, List.countP_append, List.countP_singleton,
      List.count_append, List.count_singleton, beq_iff_eq, decide_eq_true_eq] at before ⊢
    omega
  · simp only [State.setReader, List.length_append, List.length_singleton]
    omega
  · intro other mem'
    rcases List.mem_or_eq_of_mem_set mem' with mem' | rfl
    · exact sound other mem'
    · intro r held'
      cases held'
      exact ⟨file, first, fits, walks'⟩
  · intro other mem' live'
    obtain ⟨i, there⟩ := List.mem_iff_getElem?.mp mem'
    by_cases apart : i = j
    · subst apart
      obtain rfl := Option.some.inj ((List.getElem?_set_self
        (List.getElem?_eq_some_iff.mp here).1).symm.trans there)
      intro k there own
      refine ⟨r', rfl, ?_⟩
      rcases List.mem_append.mp there with there | new
      · obtain ⟨other, held', below⟩ := ahead reader mem live k there own
        cases held.symm.trans held'
        exact UInt64.lt_trans below past
      · obtain rfl := List.mem_singleton.mp new
        show job.index < r'.index
        rw [index]
        exact past
    · have there : s.readers[i]? = some other :=
        (List.getElem?_set_ne (Ne.symm apart)).symm.trans there
      intro k there' own
      rcases List.mem_append.mp there' with there' | new
      · exact ahead other (List.mem_of_getElem? there) live' k there' own
      · obtain rfl := List.mem_singleton.mp new
        have idle := alone i other apart there (own.symm.trans job_id)
        exact absurd (idle.symm.trans live') Bool.false_ne_true
  · intro id
    have few := single id
    have set := @countP_set_add _ (isActive id) _ _ _ here ⟨reader.id, .queued job.index r'⟩
    have fewer : isActive id ⟨reader.id, .queued job.index r'⟩ = true →
        isActive id reader = true := by
      intro both
      exact Bool.and_eq_true_iff.mpr ⟨(Bool.and_eq_true_iff.mp both).1, live⟩
    show (s.readers.set j ⟨reader.id, .queued job.index r'⟩).countP (isActive id) ≤ 1
    split at set <;> split at set <;> first | omega | (exfalso; simp_all)
  · intro other mem'
    rcases List.mem_or_eq_of_mem_set mem' with mem' | rfl
    · exact known.1 other mem'
    · exact known.1 reader mem
  · intro k there
    rcases List.mem_append.mp there with there | new
    · exact known.2 k there
    · obtain rfl := List.mem_singleton.mp new
      show job.id ∈ s.started
      rw [job_id]
      exact known.1 reader mem

/-! ## Steps of the jobs -/

/-- A job moves between the queue, the sender tasks and the cache. -/
theorem Accounted.moveJobs (accounted : Accounted cfg s) (send sent : Nat)
    (queue : List Sender.Job) (tasks : List SenderTask) (cache : HashMap ChunkKey Sender.Job)
    (lost : Finset ChunkKey)
    (same : ∀ k, copies k { s with
        send := send, queue := queue, tasks := tasks, cache := cache, lost := lost, sent := sent } =
      copies k s)
    (keyed : ∀ k job, cache.lookup k = some job → key job = k) :
    Accounted cfg { s with
      send := send, queue := queue, tasks := tasks, cache := cache, lost := lost, sent := sent } where
  once := accounted.once
  counts k := by
    rw [same]
    exact accounted.counts k
  permits := accounted.permits
  total := accounted.total
  keyed := keyed
  sound := accounted.sound
  ahead := accounted.ahead
  single := accounted.single
  known := accounted.known

/-- The copies of a job in one sender task's hands. -/
def handCount (k : ChunkKey) (pc : TaskPc) : Nat :=
  match pc.job? with
  | some job => if key job = k then 1 else 0
  | none => 0

theorem handCount_again (retries : Nat) : handCount k (TaskPc.again cfg retries) = 0 := by
  unfold TaskPc.again
  split <;> rfl

theorem countP_setTask {t : Nat} {task : SenderTask} (here : s.tasks[t]? = some task)
    (task' : SenderTask) :
    (s.tasks.set t task').countP (SenderTask.holds k) + handCount k task.pc =
      s.tasks.countP (SenderTask.holds k) + handCount k task'.pc := by
  have hand : ∀ task : SenderTask,
      (if SenderTask.holds k task = true then 1 else 0) = handCount k task.pc := by
    intro task
    rw [SenderTask.holds, handCount]
    cases task.pc.job? <;> simp
  have set := @countP_set_add _ (SenderTask.holds k) _ _ _ here task'
  rwa [hand, hand] at set

theorem cacheCount_insert {cache : HashMap ChunkKey Sender.Job} {job : Sender.Job}
    (absent : key job ∉ cache) :
    cacheCount k (cache.insert (key job) job) =
      cacheCount k cache + if key job = k then 1 else 0 := by
  rw [cacheCount, cacheCount]
  by_cases same : key job = k
  · subst same
    rw [if_pos ((AList.mem_insert _).mpr (.inl rfl)), if_neg absent, if_pos rfl]
  · have iff_ : k ∈ cache.insert (key job) job ↔ k ∈ cache :=
      (AList.mem_insert _).trans (or_iff_right (Ne.symm same))
    simp only [iff_, if_neg same, Nat.add_zero]

theorem cacheCount_erase {cache : HashMap ChunkKey Sender.Job} {k' : ChunkKey}
    (mem : k' ∈ cache) :
    cacheCount k (cache.erase k') + (if k' = k then 1 else 0) = cacheCount k cache := by
  rw [cacheCount, cacheCount]
  by_cases same : k' = k
  · subst same
    rw [if_pos mem, if_pos rfl, if_neg fun here => (AList.mem_erase.mp here).1 rfl]
  · have iff_ : k ∈ cache.erase k' ↔ k ∈ cache :=
      AList.mem_erase.trans (and_iff_right (Ne.symm same))
    simp only [iff_, if_neg same, Nat.add_zero]

/-- A job leaves the cache for good. -/
theorem Accounted.retire (accounted : Accounted cfg s) {k' : ChunkKey} (mem : k' ∈ s.cache)
    (lost : Finset ChunkKey) : Accounted cfg { s.retire k' with lost := lost } := by
  obtain ⟨once, counts, permits, total, keyed, sound, ahead, single, known⟩ := accounted
  refine ⟨once, ?_, ?_, ?_, ?_, sound, ahead, single, known⟩
  · intro k
    have before := counts k
    have erased := @cacheCount_erase k s.cache k' mem
    simp only [copies, State.retire, List.count_append, List.count_singleton, beq_iff_eq]
      at before ⊢
    omega
  · simp only [State.retire, List.length_append, List.length_singleton]
    omega
  · simp only [State.retire, List.length_append, List.length_singleton]
    omega
  · intro k job found
    exact keyed k job (lookup_of_lookup_erase found)

/-! ## Starting an id -/

/-- Nothing is left of the earlier attempt of `id`. -/
def Cleared (id : UInt32) (s : State) : Prop :=
  (∀ index, copies (id, index) s = 0) ∧ ∀ reader ∈ s.readers, reader.id = id → reader.active = false

theorem Accounted.spawn (accounted : Accounted cfg s) {id : UInt32}
    (unproduced : ∀ k ∈ s.produced, k.1 ≠ id)
    (idle : ∀ reader ∈ s.readers, reader.id = id → reader.active = false) (file : SourceFile)
    (index : UInt64) (cipher : StreamCipher) : Accounted cfg (s.spawn id file index cipher) := by
  obtain ⟨once, counts, permits, total, keyed, sound, ahead, single, known⟩ := accounted
  refine ⟨once, counts, ?_, total, keyed, ?_, ?_, ?_, ?_, ?_⟩
  · simp only [State.spawn, List.countP_append, List.countP_singleton, ReaderPc.isReading,
      Bool.false_eq_true, if_false]
    exact permits
  · intro reader mem
    rcases List.mem_append.mp mem with mem | new
    · exact sound reader mem
    · cases List.mem_singleton.mp new
      exact nofun
  · intro reader mem live
    rcases List.mem_append.mp mem with mem | new
    · exact ahead reader mem live
    · cases List.mem_singleton.mp new
      exact fun k there own => absurd own (unproduced k there)
  · intro other
    have few := single other
    simp only [State.spawn, List.countP_append, List.countP_singleton]
    split
    next new =>
      have own : id = other := of_decide_eq_true (Bool.and_eq_true_iff.mp new).1
      have none_ : s.readers.countP (isActive other) = 0 := by
        refine List.countP_eq_zero.mpr fun reader mem both => ?_
        obtain ⟨own', live⟩ := Bool.and_eq_true_iff.mp both
        have idle := idle reader mem ((of_decide_eq_true own').trans own.symm)
        exact Bool.false_ne_true (idle.symm.trans live)
      omega
    next => omega
  · intro reader mem
    refine List.mem_append.mpr ?_
    rcases List.mem_append.mp mem with mem | new
    · exact .inl (known.1 reader mem)
    · cases List.mem_singleton.mp new
      exact .inr (List.mem_singleton_self _)
  · exact fun k there => List.mem_append_left _ (known.2 k there)

theorem Accounted.replaceAttempt (accounted : Accounted cfg s) {id : UInt32}
    (cleared : ∀ index, copies (id, index) s = 0) : Accounted cfg (s.replaceAttempt id) := by
  obtain ⟨once, counts, permits, total, keyed, sound, ahead, single, known⟩ := accounted
  -- of the id, what was queued has been retired
  have same : (s.produced.filter fun key => decide (key.1 = id)).Perm
      (s.retired.filter fun key => decide (key.1 = id)) := by
    refine List.perm_iff_count.mpr fun k => ?_
    by_cases own : k.1 = id
    · have all := counts k
      have none_ := cleared k.2
      rw [← own] at none_
      rw [List.count_filter (by simpa using own), List.count_filter (by simpa using own)]
      have none_ : copies k s = 0 := none_
      omega
    · rw [List.count_eq_zero_of_not_mem, List.count_eq_zero_of_not_mem]
      · exact fun mem => own (of_decide_eq_true (List.mem_filter.mp mem).2)
      · exact fun mem => own (of_decide_eq_true (List.mem_filter.mp mem).2)
  have split : ∀ l : List ChunkKey, l.length =
      (l.filter fun key => decide (key.1 ≠ id)).length +
        (l.filter fun key => decide (key.1 = id)).length := by
    intro l
    rw [List.length_eq_length_filter_add fun key => decide (key.1 ≠ id)]
    simp
  have produced := split s.produced
  have retired := split s.retired
  have lengths := same.length_eq
  refine ⟨once.filter _, ?_, ?_, ?_, keyed, sound, ?_, single, known.1, ?_⟩
  · intro k
    have all := counts k
    show copies k s + (s.retired.filter fun key => decide (key.1 ≠ id)).count k =
      (s.produced.filter fun key => decide (key.1 ≠ id)).count k
    by_cases own : k.1 = id
    · have none_ : copies k s = 0 := by
        rw [← cleared k.2, ← own]
      rw [none_, List.count_eq_zero_of_not_mem, List.count_eq_zero_of_not_mem]
      · exact fun mem => of_decide_eq_true (List.mem_filter.mp mem).2 own
      · exact fun mem => of_decide_eq_true (List.mem_filter.mp mem).2 own
    · rw [List.count_filter (by simpa using own), List.count_filter (by simpa using own)]
      exact all
  · simp only [State.replaceAttempt]
    omega
  · simp only [State.replaceAttempt, List.countP_eq_length_filter]
    omega
  · exact fun reader mem live k there => ahead reader mem live k (List.mem_of_mem_filter there)
  · exact fun k there => known.2 k (List.mem_of_mem_filter there)

/-! ## Runs -/

/-- An id is started again only when nothing is left of its earlier attempt. -/
def ClearsFirst (s : State) (action : Action) : Prop :=
  ∀ id file index cipher, action = .restart id file index cipher → Cleared id s

theorem accounted_move (accounted : Accounted cfg s) (clears : ClearsFirst s action)
    (move : Move cfg s action s') : Accounted cfg s' := by
  cases move with
  | started fresh =>
      refine accounted.spawn ?_ ?_ _ _ _
      · rintro k there rfl
        exact fresh (accounted.known.2 k there)
      · rintro reader mem rfl
        exact absurd (accounted.known.1 reader mem) fresh
  | @restarted id file index cipher known =>
      obtain ⟨cleared, idle⟩ := clears id file index cipher rfl
      refine (accounted.replaceAttempt cleared).spawn ?_ idle _ _ _
      intro k there
      exact of_decide_eq_true (List.mem_filter.mp there).2
  | @opened j reader file index cipher here pc _ =>
      refine accounted.setReader here s.read _ (by rw [pc]; rfl) ?_ (.inr (.inr ⟨by rw [pc]; rfl, ?_⟩))
      · intro live
        rw [ReaderTask.active, pc]
        exact live
      · intro r held
        cases held
        exact ⟨file.contents, index.toNat, Nat.lt_trans file.fits (by decide),
          Reader.walks_start _ _ _ _⟩
  | unseekable here pc _ | unopened here pc =>
      exact accounted.setReader here s.read _ (by rw [pc]; rfl) nofun (.inl rfl)
  | ended here pc =>
      exact accounted.setReader here (s.read + 1) _ (by rw [pc]; rfl) nofun (.inl rfl)
  | acquired here pc available =>
      refine accounted.setReader here (s.read - 1) _ ?_ ?_ (.inr (.inl (by rw [pc]; rfl)))
      · rw [pc]
        simp only [ReaderPc.isReading, if_true, Bool.false_eq_true, if_false]
        omega
      · intro live
        rw [ReaderTask.active, pc]
        exact live
  | produced here pc next _ => exact accounted.produce here pc next
  | forgot here pc =>
      refine accounted.setReader here s.read _ (by rw [pc]; rfl) ?_ (.inr (.inl (by rw [pc]; rfl)))
      intro live
      rw [ReaderTask.active, pc]
      exact live
  | permitted =>
      exact accounted.moveJobs (s.send + 1) s.sent s.queue s.tasks s.cache s.lost (fun _ => rfl)
        accounted.keyed
  | @sendAcquired t task here pc =>
      refine accounted.moveJobs (s.send - 1) s.sent s.queue _ s.cache s.lost (fun k => ?_)
        accounted.keyed
      have set := @countP_setTask s k t task here { task with pc := .receiving }
      rw [pc] at set
      simp only [handCount, TaskPc.job?] at set
      simp only [copies]
      omega
  | @received t task job rest here pc queue =>
      refine accounted.moveJobs s.send s.sent rest _ s.cache s.lost (fun k => ?_) accounted.keyed
      have set := @countP_setTask s k t task here { task with pc := .sending job }
      rw [pc] at set
      simp only [handCount, TaskPc.job?] at set
      simp only [copies, queue, List.countP_cons, decide_eq_true_eq]
      omega
  | @sent t task job here pc =>
      refine accounted.moveJobs s.send s.sent s.queue _ s.cache s.lost (fun k => ?_)
        accounted.keyed
      have set := @countP_setTask s k t task here { task with pc := .caching job }
      rw [pc] at set
      simp only [handCount, TaskPc.job?] at set
      simp only [copies]
      omega
  | @sendFailed t task job here pc =>
      refine accounted.moveJobs s.send s.sent (s.queue ++ [job]) _ s.cache s.lost (fun k => ?_)
        accounted.keyed
      have set := @countP_setTask s k t task here
        ⟨TaskPc.again cfg (task.retries + 1), task.retries + 1⟩
      rw [pc, handCount_again] at set
      simp only [handCount, TaskPc.job?] at set
      simp only [copies, List.countP_append, List.countP_singleton, decide_eq_true_eq]
      omega
  | @cached t task job here pc =>
      have before : task.pc.job? = some job := by rw [pc]; rfl
      have absent := accounted.not_mem_cache here before
      refine accounted.moveJobs s.send (s.sent + 1) s.queue _ _ s.lost (fun k => ?_) ?_
      · have set := @countP_setTask s k t task here ⟨TaskPc.again cfg 0, 0⟩
        rw [pc, handCount_again] at set
        simp only [handCount, TaskPc.job?] at set
        simp only [copies, cacheCount_insert absent]
        omega
      · intro k other found
        rcases lookup_insert_cases found with ⟨rfl, rfl⟩ | found
        · rfl
        · exact accounted.keyed k other found
  | confirmed mem => exact accounted.retire mem s.lost
  | lost absent =>
      exact accounted.moveJobs s.send s.sent s.queue s.tasks s.cache _ (fun _ => rfl)
        accounted.keyed
  | @requeued k' job found unconfirmed =>
      have own := accounted.keyed k' job found
      have mem : k' ∈ s.cache := AList.lookup_isSome.mp (by rw [found]; rfl)
      refine accounted.moveJobs s.send s.sent (s.queue ++ [job]) s.tasks _ s.lost (fun k => ?_) ?_
      · have erased := @cacheCount_erase k s.cache k' mem
        simp only [copies, List.countP_append, List.countP_singleton, decide_eq_true_eq, own]
        omega
      · exact fun k other found' => accounted.keyed k other (lookup_of_lookup_erase found')
  | late mem confirmed => exact accounted.retire mem _
  | gone => exact accounted

/-- In every run that starts ids again only when nothing is left of them, everything is
accounted for. -/
theorem accounted_reached (reached : (machine cfg).ReachableVia ClearsFirst s) :
    Accounted cfg s :=
  reached.invariant (fun _ start => start ▸ accounted_init)
    fun _ _ _ _ accounted clears next => accounted_move accounted clears (step_cases next)

/-! ## Conservation -/

/-- Every id is started once. -/
def Action.startsOnce : Action → Bool
  | .restart .. => false
  | _ => true

/-- What holds besides when every id is started once. -/
structure FirstAttempts (s : State) : Prop where
  first : s.earlier = 0
  ids : s.started = s.readers.map ReaderTask.id
  apart : s.started.Nodup
  queued : ∀ reader ∈ s.readers, ∀ index r, reader.pc = .queued index r →
    (reader.id, index) ∈ s.produced

/-- The key of the chunk whose permit a reader will forget next. -/
def ReaderTask.owes (reader : ReaderTask) : Option ChunkKey :=
  match reader.pc with
  | .queued index _ => some (reader.id, index)
  | _ => none

/-- The chunks that were queued by a reader that still holds their permit. -/
def unforgotten (s : State) : List ChunkKey :=
  s.readers.filterMap ReaderTask.owes

/-- The permits in the hands of readers. -/
def held (s : State) : Nat :=
  s.readers.countP (fun reader => reader.pc.isReading) + (unforgotten s).length

/-- The jobs in memory whose reader has forgotten their permit. -/
def forgotten (s : State) : Nat :=
  (keys s).countP fun k => decide (k ∉ unforgotten s)

/-- The readers that still hold the permit of a chunk that has been retired. -/
def overdue (s : State) : Nat :=
  (unforgotten s).countP fun k => decide (k ∈ s.retired)

theorem firstAttempts_init : FirstAttempts (initial cfg) where
  first := rfl
  ids := rfl
  apart := List.nodup_nil
  queued := nofun

/-- A reader goes on; the chunk it has queued is one that was produced. -/
theorem FirstAttempts.setReader (attempts : FirstAttempts s) {j : Nat} {reader : ReaderTask}
    (here : s.readers[j]? = some reader) (read : Nat) (queue : List Sender.Job) (pc : ReaderPc)
    (produced : List ChunkKey) (grows : s.produced ⊆ produced)
    (own : ∀ index r, pc = .queued index r → (reader.id, index) ∈ produced) :
    FirstAttempts ({ s with read := read, queue := queue, produced := produced
      }.setReader j reader pc) where
  first := attempts.first
  ids := attempts.ids.trans (map_set_same (b := { reader with pc := pc }) here rfl).symm
  apart := attempts.apart
  queued := by
    intro other mem index r pc'
    rcases List.mem_or_eq_of_mem_set mem with mem | rfl
    · exact grows (attempts.queued other mem index r pc')
    · exact own index r pc'

theorem firstAttempts_move (attempts : FirstAttempts s) (once : action.startsOnce = true)
    (move : Move cfg s action s') : FirstAttempts s' := by
  have same := List.Subset.refl s.produced
  cases move with
  | started fresh =>
      obtain ⟨first, ids, apart, queued⟩ := attempts
      refine ⟨first, ?_, ?_, ?_⟩
      · simp only [State.spawn, List.map_append, ids, List.map_cons, List.map_nil]
      · exact List.nodup_append.mpr ⟨apart, List.nodup_singleton _, by
          rintro other mem _ new rfl
          exact fresh (List.mem_singleton.mp new ▸ mem)⟩
      · intro reader mem index r pc
        rcases List.mem_append.mp mem with mem | new
        · exact queued reader mem index r pc
        · cases List.mem_singleton.mp new
          cases pc
  | restarted => cases once
  | opened here pc _ => exact attempts.setReader here s.read s.queue _ s.produced same nofun
  | unseekable here pc _ | unopened here pc =>
      exact attempts.setReader here s.read s.queue _ s.produced same nofun
  | ended here pc => exact attempts.setReader here (s.read + 1) s.queue _ s.produced same nofun
  | acquired here pc available =>
      exact attempts.setReader here (s.read - 1) s.queue _ s.produced same nofun
  | @produced j reader r r' job here pc next _ =>
      refine attempts.setReader here s.read (s.queue ++ [job]) _ (s.produced ++ [key job])
        (List.subset_append_left _ _) ?_
      intro index r queued
      cases queued
      rw [key, Reader.next_id next]
      exact List.mem_append_right _ (List.mem_singleton_self _)
  | forgot here pc => exact attempts.setReader here s.read s.queue _ s.produced same nofun
  | permitted | sendAcquired | received | sent | sendFailed | cached | confirmed | lost
  | requeued | late | gone => exact ⟨attempts.first, attempts.ids, attempts.apart, attempts.queued⟩

theorem accounted_of_startsOnce
    (reached : (machine cfg).ReachableVia (fun _ action => action.startsOnce = true) s) :
    Accounted cfg s := by
  refine accounted_reached (reached.mono fun _ action once id file index cipher restart => ?_)
  rw [restart] at once
  cases once

theorem firstAttempts_reached
    (reached : (machine cfg).ReachableVia (fun _ action => action.startsOnce = true) s) :
    FirstAttempts s := by
  refine reached.invariant ?_ ?_
  · rintro _ rfl
    exact firstAttempts_init
  · intro _ _ _ _ attempts once next
    exact firstAttempts_move attempts once (step_cases next)

theorem owes_fst {reader : ReaderTask} {k : ChunkKey} (owes : reader.owes = some k) :
    k.1 = reader.id := by
  unfold ReaderTask.owes at owes
  split at owes
  next => cases owes; rfl
  next => cases owes

/-- No chunk is owed twice: there is one reader for each id. -/
theorem FirstAttempts.nodup_unforgotten (attempts : FirstAttempts s) : (unforgotten s).Nodup := by
  have apart : (s.readers.map ReaderTask.id).Nodup := attempts.ids ▸ attempts.apart
  refine List.pairwise_filterMap.mpr ((List.pairwise_map.mp apart).imp ?_)
  rintro reader other differ k owes _ owes' rfl
  exact differ ((owes_fst owes).symm.trans (owes_fst owes'))

theorem FirstAttempts.mem_produced (attempts : FirstAttempts s) (mem : k ∈ unforgotten s) :
    k ∈ s.produced := by
  obtain ⟨reader, there, owes⟩ := List.mem_filterMap.mp mem
  unfold ReaderTask.owes at owes
  split at owes
  next index r pc =>
    cases owes
    exact attempts.queued reader there index r pc
  next => cases owes

/-- The keys of the jobs in memory, and the retired ones, are what was produced. -/
theorem Accounted.perm_produced (accounted : Accounted cfg s) :
    (keys s ++ s.retired).Perm s.produced := by
  refine List.perm_iff_count.mpr fun k => ?_
  rw [List.count_append, count_keys]
  exact accounted.counts k

theorem Accounted.permits_keys (accounted : Accounted cfg s) :
    s.read + s.readers.countP (fun reader => reader.pc.isReading) + (keys s).length =
      cfg.jobLimit := by
  have permits := accounted.permits
  have lengths := accounted.perm_produced.length_eq
  rw [List.length_append] at lengths
  omega

/-- A chunk that is owed is in memory or overdue, and not both. -/
theorem length_unforgotten (accounted : Accounted cfg s) (attempts : FirstAttempts s) :
    (unforgotten s).length =
      (unforgotten s).countP (fun k => decide (k ∈ keys s)) + overdue s := by
  have apart := (List.nodup_append.mp (accounted.perm_produced.nodup_iff.mpr accounted.once)).2.2
  rw [overdue, List.length_eq_countP_add_countP fun k => decide (k ∈ keys s)]
  congr 1
  refine List.countP_congr fun k mem => ?_
  have all : k ∈ keys s ++ s.retired :=
    accounted.perm_produced.mem_iff.mpr (attempts.mem_produced mem)
  simp only [decide_eq_true_eq]
  constructor
  · exact (List.mem_append.mp all).resolve_left
  · exact fun retired there => apart k there k retired rfl

theorem length_keys (accounted : Accounted cfg s) (attempts : FirstAttempts s) :
    (keys s).length =
      (unforgotten s).countP (fun k => decide (k ∈ keys s)) + forgotten s := by
  have nodup := (List.nodup_append.mp (accounted.perm_produced.nodup_iff.mpr accounted.once)).1
  rw [countP_mem_comm attempts.nodup_unforgotten nodup, forgotten,
    List.length_eq_countP_add_countP fun k => decide (k ∈ unforgotten s)]
  simp only [decide_eq_true_eq]

/-- **Permits are conserved** when every id is started once: the available ones, those of
the readers and those of the jobs in memory make up the limit, once a reader that has not
yet forgotten the permit of a retired chunk is taken into account. -/
theorem permits_conserved
    (reached : (machine cfg).ReachableVia (fun _ action => action.startsOnce = true) s) :
    s.read + held s + forgotten s = cfg.jobLimit + overdue s ∧
      s.confirmed + (keys s).length = s.produced.length ∧
      (keys s).length ≤ cfg.jobLimit ∧ s.retired.Nodup ∧
      ∀ k, k ∈ s.produced ↔ k ∈ keys s ∨ k ∈ s.retired := by
  have accounted := accounted_of_startsOnce reached
  have attempts := firstAttempts_reached reached
  have perm := accounted.perm_produced
  have permits := accounted.permits_keys
  have owed := length_unforgotten accounted attempts
  have inMemory := length_keys accounted attempts
  have lengths := perm.length_eq
  have total := accounted.total
  have first := attempts.first
  rw [List.length_append] at lengths
  refine ⟨?_, by omega, by omega, ?_, fun k => ?_⟩
  · rw [held]
    omega
  · exact (List.nodup_append.mp (perm.nodup_iff.mpr accounted.once)).2.1
  · rw [← perm.mem_iff, List.mem_append]

def oneByte : SourceFile := ⟨[7], by decide⟩

/-- One permit and one sender task. -/
def onePermit : Config := ⟨1, 1, 5⟩

/-- The only chunk of a file is queued, sent, cached and confirmed before its reader goes on. -/
def confirmedEarly : List Action :=
  [.start 0 oneByte 0 ⟨fun _ => 0, 0, none⟩, .open_ 0, .acquireRead 0, .readChunk 0, .addPermit,
    .acquireSend 0, .receive 0, .send 0, .cacheJob 0, .confirm (0, 0)]

/-- A reader may still hold the permit of a chunk that has been confirmed. -/
theorem overdue_unbalanced : ∃ s,
    (machine onePermit).ReachableVia (fun _ action => action.startsOnce = true) s ∧
      s.read + held s + forgotten s ≠ onePermit.jobLimit := by
  obtain ⟨s, reached, unbalanced⟩ := Machine.reachableVia_of_test
    (M := machine onePermit) rfl confirmedEarly (fun _ action => action.startsOnce)
    (fun s => decide (s.read + held s + forgotten s ≠ onePermit.jobLimit)) (by decide +kernel)
  exact ⟨s, reached, of_decide_eq_true unbalanced⟩

theorem permits_conserved_oneByte : ∃ s,
    (machine onePermit).ReachableVia (fun _ action => action.startsOnce = true) s ∧
      s.retired = [(0, 0)] ∧ s.read + held s + forgotten s = onePermit.jobLimit + overdue s := by
  obtain ⟨s, reached, retired⟩ := Machine.reachableVia_of_test
    (M := machine onePermit) rfl (confirmedEarly ++ [.forget 0])
    (fun _ action => action.startsOnce) (fun s => decide (s.retired = [(0, 0)]))
    (by decide +kernel)
  exact ⟨s, reached, of_decide_eq_true retired, (permits_conserved reached).1⟩

end Flow

end Cccp
