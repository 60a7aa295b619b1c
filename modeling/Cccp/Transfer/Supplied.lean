import Cccp.Transfer.Attempts
import Cccp.Transfer.Integrity

/-!
# What a transfer goes on with

As long as no reader and no writer fails (`Healthy`), nothing that a transfer needs is ever
gone: the readers still come to every chunk that was not queued, the datagrams of the jobs in
the cache are on the network, and every started file has its writer (`Supplied`).
`kept_reached` collects this with the other invariants of the data path.
-/

namespace Cccp

namespace Transfer

open Reader (ChunkPosition)

variable {cfg : Config} {keystream : UInt32 → Keystream} {s s' : State} {action : Action}
  {k : ChunkKey} {id : UInt32}

/-! ## Steps without failures -/

/-- A reader or a writer fails. -/
def Action.fails : Action → Bool
  | .mismatch _ | .writerFails _ | .sender (.readerFails _) => true
  | _ => false

/-- The cipher's keystream, if it ends, reaches to the end of the file. -/
def Lasts (cfg : Config) (id : UInt32) (cipher : StreamCipher) : Prop :=
  ∀ n, cipher.ends = some n → (cfg.source id).contents.length ≤ n

/-- A file is started with a keystream that lasts. -/
def Action.Lasting (cfg : Config) : Action → Prop
  | .start id _ cipher | .retry id _ cipher => Lasts cfg id cipher
  | _ => True

/-- Every id is started once, at a chunk and with its keystream, which lasts, and no file fails
at either end. -/
def Healthy (cfg : Config) (keystream : UInt32 → Keystream) (_ : State) (action : Action) :
    Prop :=
  Keyed cfg keystream action ∧ action.startsOnce = true ∧ action.fails = false ∧
    action.Lasting cfg

/-! ## What is there to go on with -/

/-- The loop of a reader stands at a chunk from `first` on, or at the end of the file, and has
keystream for all of it. -/
def Stands (cfg : Config) (keystream : UInt32 → Keystream) (id : UInt32) (first : UInt64)
    (r : Reader) : Prop :=
  Lasts cfg id r.cipher ∧ ∃ position, r.At (cfg.source id).contents id (keystream id) position ∧
    first.toNat ≤ position ∧ (transferBufferSize ∣ position - first.toNat ∨
      (cfg.source id).contents.length ≤ position)

/-- The reader goes through its file from `first` on. -/
def Goes (cfg : Config) (keystream : UInt32 → Keystream) (first : UInt64)
    (reader : Flow.ReaderTask) : Prop :=
  match reader.pc with
  | .opening file index cipher => file = cfg.source reader.id ∧ index = first ∧
      cipher.keystream = keystream reader.id ∧ Lasts cfg reader.id cipher ∧
      index.toNat ≤ (cfg.source reader.id).contents.length
  | .stopped => True
  | .acquiring r | .reading r | .queued _ r => Stands cfg keystream reader.id first r

/-- The chunk is still to come from the reader. -/
def Comes (index : UInt64) (reader : Flow.ReaderTask) : Prop :=
  match reader.pc with
  | .opening .. => True
  | .stopped => False
  | .acquiring r | .reading r | .queued _ r => r.index ≤ index

/-- The frame of a job names the job. -/
def Labelled (job : Sender.Job) : Prop :=
  (Receiver.decodeFrame job.data).1 = job.id ∧
    (Receiver.decodeFrame job.data).2.index = job.index

section Readers

variable {reader : Flow.ReaderTask} {r r' : Reader} {job : Sender.Job} {index first : UInt64}

theorem comes_iff (held : reader.pc.reader? = some r) : Comes index reader ↔ r.index ≤ index := by
  unfold Comes
  cases pc : reader.pc <;> rw [pc] at held <;> cases held <;> exact Iff.rfl

theorem goes_iff (held : reader.pc.reader? = some r) :
    Goes cfg keystream first reader ↔ Stands cfg keystream reader.id first r := by
  unfold Goes
  cases pc : reader.pc <;> rw [pc] at held <;> cases held <;> exact Iff.rfl

theorem stands_start {cipher : StreamCipher} (own : cipher.keystream = keystream id)
    (lasts : Lasts cfg id cipher) (within : first.toNat ≤ (cfg.source id).contents.length) :
    Stands cfg keystream id first (Reader.start (cfg.source id).contents first id cipher) := by
  refine ⟨lasts, first.toNat, own ▸ Reader.at_start cipher within, Nat.le_refl _, .inl ?_⟩
  rw [Nat.sub_self]
  exact Nat.dvd_zero _

/-- An iteration queues the chunk the reader stands at, and moves on by a chunk at most. -/
theorem Stands.next (stands : Stands cfg keystream id first r)
    (next : r.next id = some (job, r')) :
    job.index = r.index ∧ Labelled job ∧
      ChunkPosition (cfg.source id).contents first.toNat r.index.toNat ∧
      r.index.toNat < r'.index.toNat ∧ r'.index.toNat ≤ r.index.toNat + transferBufferSize ∧
      r'.cipher.past r'.cipher.offset = false ∧ Stands cfg keystream id first r' := by
  obtain ⟨lasts, position, at_, above, aligned⟩ := stands
  have lasts' : Lasts cfg id r'.cipher := by
    rw [Lasts, Reader.next_ends next]
    exact lasts
  have fits : (cfg.source id).contents.length < 2 ^ 64 :=
    Nat.lt_trans (cfg.source id).fits (by decide)
  have pos : 0 < transferBufferSize := by decide
  rcases Nat.lt_or_ge position (cfg.source id).contents.length with more | done
  · obtain ⟨job', r'', next', own, here, carries, at'⟩ := at_.next fits more
    obtain ⟨rfl, rfl⟩ := Prod.mk.inj (Option.some.inj (next'.symm.trans next))
    obtain ⟨id_eq, index_eq, -⟩ := carries.decodeFrame (Nat.lt_trans more fits)
    have chunk := aligned.resolve_right (Nat.not_le.mpr more)
    have count := length_chunkAt (cfg.source id).contents position
    have there := at'.index_eq
    rw [at_.index_eq]
    refine ⟨UInt64.toNat_inj.mp (here.trans at_.index_eq.symm),
      ⟨id_eq.trans own.symm, UInt64.toNat_inj.mp (index_eq.trans here.symm)⟩,
      ⟨above, more, chunk⟩, by omega, by omega, ?_, lasts', _, at', by omega, ?_⟩
    · refine StreamCipher.past_eq_false_iff.mpr fun n ends => ?_
      have enough := lasts' n ends
      rw [at'.offset_eq]
      omega
    · rcases Nat.lt_or_ge (position + transferBufferSize) (cfg.source id).contents.length with
        within | last
      · left
        rw [count, Nat.min_eq_left (by omega),
          show position + transferBufferSize - first.toNat =
            position - first.toNat + transferBufferSize by omega]
        exact Nat.dvd_add chunk (Nat.dvd_refl _)
      · right
        omega
  · rw [at_.next_end done] at next
    cases next

/-- A reader whose loop ends has no chunk before it. -/
theorem Stands.done (stands : Stands cfg keystream id first r) (done : r.next id = none) :
    (cfg.source id).contents.length ≤ r.index.toNat := by
  obtain ⟨-, position, at_, -⟩ := stands
  rw [at_.index_eq]
  by_contra more
  obtain ⟨job, r', next, -⟩ := at_.next (Nat.lt_trans (cfg.source id).fits (by decide))
    (Nat.not_le.mp more)
  cases next.symm.trans done

end Readers

/-- The reader goes through its file from the start of its attempt on, and the chunks it is
past were queued. -/
def Underway (cfg : Config) (keystream : UInt32 → Keystream) (s : State)
    (reader : Flow.ReaderTask) : Prop :=
  ∃ first, (s.attempts reader.id).first? = some first ∧ Goes cfg keystream first reader ∧
    ∀ index : UInt64, ChunkPosition (cfg.source reader.id).contents first.toNat index.toNat →
      (reader.id, index) ∈ s.flow.produced ∨ Comes index reader

theorem Underway.advances {old reader : Flow.ReaderTask} {step : Flow.Action}
    (underway : Underway cfg keystream s old) (advances : Flow.Advances step old reader)
    (unfailing : ∀ j, step ≠ .readerFails j)
    (begins : (s'.attempts old.id).first? = (s.attempts old.id).first?)
    (grows : s.flow.produced ⊆ s'.flow.produced)
    (queued : ∀ index r, reader.pc = .queued index r → (reader.id, index) ∈ s'.flow.produced) :
    Underway cfg keystream s' reader := by
  obtain ⟨first, same, goes, chunks⟩ := underway
  rw [← begins] at same
  cases advances with
  | same => exact ⟨first, same, goes, fun index chunk => (chunks index chunk).imp_left (@grows _)⟩
  | opened pc =>
      rw [Goes, pc] at goes
      obtain ⟨rfl, rfl, own, lasts, within⟩ := goes
      refine ⟨_, same, stands_start own lasts within, fun index chunk => .inr ?_⟩
      exact UInt64.le_iff_toNat_le.mpr chunk.1
  | unseekable pc past =>
      rw [Goes, pc] at goes
      obtain ⟨rfl, rfl, -, lasts, within⟩ := goes
      have seeks := StreamCipher.past_eq_false_iff.mpr fun n ends => within.trans (lasts n ends)
      cases seeks.symm.trans past
  | failed fails => exact absurd fails (unfailing _)
  | @ended r pc stops =>
      have held : old.pc.reader? = some r := by rw [pc]; rfl
      have stands := (goes_iff held).mp goes
      have done : r.next old.id = none := by
        cases more : r.next old.id with
        | none => rfl
        | some made =>
            obtain ⟨-, -, -, -, -, lasts, -⟩ := stands.next more
            cases lasts.symm.trans (stops _ _ more)
      have past := stands.done done
      refine ⟨first, same, trivial, fun index chunk => .inl ?_⟩
      rcases chunks index chunk with mem | comes
      · exact grows mem
      · have inside := chunk.2.1
        have comes := UInt64.le_iff_toNat_le.mp ((comes_iff held).mp comes)
        exact absurd inside (Nat.not_lt.mpr (Nat.le_trans past comes))
  | @kept pc r before after =>
      refine ⟨first, same, (goes_iff after).mpr ((goes_iff before).mp goes), ?_⟩
      intro index chunk
      refine (chunks index chunk).imp (@grows _) fun comes => ?_
      exact (comes_iff after).mpr ((comes_iff before).mp comes)
  | @read r r' job pc next =>
      have held : old.pc.reader? = some r := by rw [pc]; rfl
      obtain ⟨here, -, position, -, short, -, stands⟩ := ((goes_iff held).mp goes).next next
      refine ⟨first, same, stands, fun index chunk => ?_⟩
      rcases chunks index chunk with mem | comes
      · exact .inl (grows mem)
      by_cases own : index = job.index
      · exact .inl (own ▸ queued job.index r' rfl)
      · -- both are chunks, so the next one is a whole chunk away
        have comes := UInt64.le_iff_toNat_le.mp ((comes_iff held).mp comes)
        have apart : index.toNat ≠ r.index.toNat := fun same =>
          own ((UInt64.toNat_inj.mp same).trans here.symm)
        obtain ⟨above, -, aligned⟩ := position
        have gap : transferBufferSize ∣ index.toNat - r.index.toNat := by
          have := Nat.dvd_sub chunk.2.2 aligned
          rwa [show index.toNat - first.toNat - (r.index.toNat - first.toNat) =
            index.toNat - r.index.toNat by omega] at this
        have := Nat.le_of_dvd (by omega) gap
        exact .inr (UInt64.le_iff_toNat_le.mpr (by omega))

/-! ## The invariant -/

/-- The attempt goes on. -/
def Attempt.live : Attempt → Bool
  | .starting .. | .running .. => true
  | _ => false

/-- All that is needed to go on is there: the readers still come to what was not queued, what
was sent is on the network, and every started file has its writer. -/
structure Supplied (cfg : Config) (keystream : UInt32 → Keystream) (s : State) : Prop where
  readers : ∀ reader ∈ s.flow.readers, Underway cfg keystream s reader
  labelled : Flow.Each Labelled s.flow
  caching : ∀ task ∈ s.flow.tasks, ∀ job, task.pc = .caching job → job.data ∈ s.network
  cached : ∀ k job, s.flow.cache.lookup k = some job → job.data ∈ s.network
  live : ∀ id ∈ s.flow.started, (s.attempts id).live = true

theorem supplied_init : Supplied cfg keystream (initial cfg) where
  readers := nofun
  labelled := Flow.each_init
  caching := by
    intro task mem job pc
    have again := @Flow.again_job? cfg.flow 0
    rw [List.eq_of_mem_replicate mem] at pc
    dsimp only at pc
    rw [pc] at again
    cases again
  cached := nofun
  live := nofun

/-- What is in the cache or about to be is on the network. -/
theorem Supplied.sent (supplied : Supplied cfg keystream s) {flow : Flow.State}
    {step : Flow.Action} (move : Flow.Move cfg.flow s.flow step flow) {network : List Bytes}
    (more : s.network ⊆ network) (sent : datagrams s.flow step ⊆ network) :
    (∀ task ∈ flow.tasks, ∀ job, task.pc = .caching job → job.data ∈ network) ∧
      ∀ k job, flow.cache.lookup k = some job → job.data ∈ network := by
  have caching : ∀ task ∈ s.flow.tasks, ∀ job, task.pc = .caching job → job.data ∈ network :=
    fun task mem job pc => more (supplied.caching task mem job pc)
  have cached : ∀ k job, s.flow.cache.lookup k = some job → job.data ∈ network :=
    fun k job found => more (supplied.cached k job found)
  have erased : ∀ {key k job}, (s.flow.cache.erase key).lookup k = some job →
      job.data ∈ network :=
    fun found => cached _ _ (lookup_of_lookup_erase found)
  have setTask : ∀ {t : Nat} {new : Flow.SenderTask},
      (∀ job, new.pc = .caching job → job.data ∈ network) →
      ∀ task ∈ s.flow.tasks.set t new, ∀ job, task.pc = .caching job → job.data ∈ network := by
    intro t new own task mem
    rcases List.mem_or_eq_of_mem_set mem with mem | rfl
    · exact caching task mem
    · exact own
  have again : ∀ {retries : Nat} (job : Sender.Job),
      Flow.TaskPc.again cfg.flow retries = .caching job → job.data ∈ network := by
    intro retries job pc
    have none_ := @Flow.again_job? cfg.flow retries
    rw [pc] at none_
    cases none_
  cases move with
  | sendAcquired | received => exact ⟨setTask nofun, cached⟩
  | @sent t task job here pc =>
      refine ⟨setTask ?_, cached⟩
      rintro _ ⟨⟩
      apply sent
      simp [datagrams, here, pc, Flow.TaskPc.job?]
  | sendFailed here pc => exact ⟨setTask again, cached⟩
  | @cached t task job here pc =>
      refine ⟨setTask again, fun k other found => ?_⟩
      rcases lookup_insert_cases found with ⟨-, rfl⟩ | found
      · exact caching task (List.mem_of_getElem? here) _ pc
      · exact cached k other found
  | confirmed | requeued | late => exact ⟨caching, fun _ _ found => erased found⟩
  | started | restarted | opened | unseekable | unopened | ended | acquired | produced | forgot
  | permitted | lost | gone => exact ⟨caching, cached⟩

theorem started_flow {flow : Flow.State} {step : Flow.Action} (going : step.starts = false)
    (move : Flow.Move cfg.flow s.flow step flow) : flow.started = s.flow.started := by
  cases move with
  | started | restarted => cases going
  | _ => rfl

/-- A step of the sender's tasks. -/
theorem Supplied.flow (supplied : Supplied cfg keystream s) {flow : Flow.State}
    {step : Flow.Action} (going : step.starts = false) (unfailing : ∀ j, step ≠ .readerFails j)
    (next : Flow.step cfg.flow s.flow step = some flow) (firsts : Flow.FirstAttempts flow)
    (once : step.startsOnce = true) {network : List Bytes} (confirmations : List ChunkKey)
    (more : s.network ⊆ network) (sent : datagrams s.flow step ⊆ network) :
    Supplied cfg keystream
      { s.setFlow flow with network := network, confirmations := confirmations } := by
  have move := Flow.step_cases next
  obtain ⟨caching, cached⟩ := supplied.sent move more sent
  refine ⟨fun reader mem => ?_, ?_, caching, cached, ?_⟩
  · obtain ⟨old, there, advances⟩ := Flow.advances_move going move mem
    refine (supplied.readers old there).advances advances unfailing rfl
      (Flow.effect_of_move once move).produced_subset ?_
    exact fun index r pc => firsts.queued reader mem index r pc
  · refine Flow.each_move_of supplied.labelled ?_ move
    intro j reader r r' job here pc read
    obtain ⟨first, -, goes, -⟩ := supplied.readers reader (List.mem_of_getElem? here)
    rw [goes_iff (by rw [pc]; rfl)] at goes
    exact (goes.next read).2.1
  · intro id mem
    exact supplied.live id (started_flow going move ▸ mem)

theorem live_setAttempt (live : ∀ id ∈ s.flow.started, (s.attempts id).live = true)
    {attempt : Attempt} (own : attempt.live = true) :
    ∀ other ∈ s.flow.started, ((s.setAttempt id attempt).attempts other).live = true := by
  intro other mem
  by_cases same : other = id
  · rw [same, setAttempt_self]
    exact own
  · rw [setAttempt_ne _ same]
    exact live other mem

/-- The writer of an attempt goes on. -/
theorem Supplied.setAttempt (supplied : Supplied cfg keystream s)
    (confirmations : List ChunkKey) {attempt : Attempt}
    (same : attempt.first? = (s.attempts id).first?) (own : attempt.live = true) :
    Supplied cfg keystream
      ({ s with confirmations := confirmations }.setAttempt id attempt) := by
  refine ⟨fun reader mem => ?_, supplied.labelled, supplied.caching, supplied.cached,
    live_setAttempt (s := { s with confirmations := confirmations }) supplied.live own⟩
  obtain ⟨first, begins, goes, chunks⟩ := supplied.readers reader mem
  refine ⟨first, ?_, goes, chunks⟩
  by_cases here : reader.id = id
  · rw [here, setAttempt_self, same, ← here]
    exact begins
  · rw [setAttempt_ne _ here]
    exact begins

/-- A file is started. -/
theorem Supplied.start (supplied : Supplied cfg keystream s)
    (known : ∀ reader ∈ s.flow.readers, reader.id ∈ s.flow.started)
    (fresh : id ∉ s.flow.started) {index : UInt64} {cipher : StreamCipher}
    (keyed : Keyed cfg keystream (.start id index cipher)) (lasts : Lasts cfg id cipher) :
    Supplied cfg keystream ((s.setFlow (s.flow.spawn id (cfg.source id) index cipher)).setAttempt
      id (.starting index cipher)) := by
  obtain ⟨own, -, within⟩ := keyed
  have labelled := supplied.labelled
  refine ⟨fun reader mem => ?_, ⟨labelled.queued, labelled.held, labelled.cached⟩,
    supplied.caching, supplied.cached, fun other mem => ?_⟩
  · rcases List.mem_append.mp mem with mem | new
    · have apart : reader.id ≠ id := by
        intro same
        exact fresh (same ▸ known reader mem)
      obtain ⟨first, begins, goes, chunks⟩ := supplied.readers reader mem
      exact ⟨first, by rw [setAttempt_ne _ apart]; exact begins, goes, chunks⟩
    · obtain rfl := List.mem_singleton.mp new
      exact ⟨index, by rw [setAttempt_self]; rfl, ⟨rfl, rfl, own, lasts, within⟩,
        fun _ _ => .inr trivial⟩
  · by_cases same : other = id
    · rw [same, setAttempt_self]
      rfl
    · rw [setAttempt_ne _ same]
      refine supplied.live other ((List.mem_append.mp mem).resolve_right fun new => ?_)
      exact same (List.mem_singleton.mp new)

theorem supplied_step (supplied : Supplied cfg keystream s)
    (known : ∀ reader ∈ s.flow.readers, reader.id ∈ s.flow.started)
    (firsts : Flow.FirstAttempts s'.flow) (healthy : Healthy cfg keystream s action)
    (next : step cfg s action = some s') : Supplied cfg keystream s' := by
  obtain ⟨keyed, once, unfailing, lasting⟩ := healthy
  cases step_cases next with
  | started fresh => exact supplied.start known fresh keyed lasting
  | retried => cases once
  | @flowed action flow own move =>
      refine supplied.flow (starts_of_isOwn own) ?_ (flow_step_of_next next) firsts
        (Flow.Action.startsOnce_of_isOwn own) s.confirmations
        (List.subset_append_left _ _) (List.subset_append_right _ _)
      rintro j rfl
      cases unfailing
  | opened here | handled _ _ here _ =>
      exact supplied.setAttempt _ (by rw [here]; rfl) rfl
  | ignored => exact supplied
  | mismatched | failed => cases unfailing
  | confirmed mem move =>
      refine supplied.flow rfl ?_ (flow_step_of_confirm next) firsts rfl _
        (List.Subset.refl _) (List.nil_subset _)
      rintro _ ⟨⟩

/-- What holds of the states of a transfer without failures. -/
structure Kept (cfg : Config) (keystream : UInt32 → Keystream) (s : State) : Prop where
  accounted : Flow.Accounted cfg.flow s.flow
  firsts : Flow.FirstAttempts s.flow
  carried : Carried cfg s
  settled : Settled s
  tracked : Tracked cfg s
  intact : Intact cfg keystream s
  supplied : Supplied cfg keystream s

theorem flow_kept (reached : (machine cfg).ReachableVia (Healthy cfg keystream) s) :
    Flow.Accounted cfg.flow s.flow ∧ Flow.FirstAttempts s.flow := by
  have reached := flow_reached (reached.mono fun _ _ healthy => healthy.2.1)
  exact ⟨Flow.accounted_of_startsOnce reached, Flow.firstAttempts_reached reached⟩

theorem supplied_reached (reached : (machine cfg).ReachableVia (Healthy cfg keystream) s) :
    Settled s ∧ Tracked cfg s ∧ Supplied cfg keystream s := by
  refine @Machine.ReachableVia.invariant _ _ _ _
    (fun s => Settled s ∧ Tracked cfg s ∧ Supplied cfg keystream s) ?_ ?_ _ reached
  · rintro _ rfl
    exact ⟨nofun, tracked_init, supplied_init⟩
  · rintro s action s' reached ⟨settled, tracked, supplied⟩ healthy next
    have accounted := (flow_kept reached).1
    have firsts := (flow_kept (.step reached healthy next)).2
    have clears : ClearsFirst s action := by
      rintro id index cipher rfl
      cases healthy.2.1
    exact ⟨settled_move settled (step_cases next),
      tracked_move tracked accounted clears (step_cases next),
      supplied_step supplied accounted.known.1 firsts healthy next⟩

theorem kept_reached (whole : ∀ id, (cfg.size id).toNat = (cfg.source id).contents.length)
    (reached : (machine cfg).ReachableVia (Healthy cfg keystream) s) :
    Kept cfg keystream s := by
  obtain ⟨accounted, firsts⟩ := flow_kept reached
  obtain ⟨settled, tracked, supplied⟩ := supplied_reached reached
  refine ⟨accounted, firsts, ?_, settled, tracked, ?_, supplied⟩
  · exact carried_reached (reached.mono fun _ _ healthy => forgets_of_startsOnce healthy.2.1)
  · exact intact_reached whole (reached.mono fun _ _ healthy => healthy.1)

end Transfer

end Cccp
