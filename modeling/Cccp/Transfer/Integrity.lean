import Cccp.Transfer.Delivery

/-!
# The data path keeps files intact

Datagrams may be lost, duplicated, delayed past the attempt they were sent in, and delivered in
any order.  All attempts of an id read the same file and use the same keystream, and they begin
at chunks, so that a datagram of any of them fits the writer of any other (`Genuine`).

`Intact` says so of everything that is in memory or on its way, and that every writer is sound.
`transfer_intact` is what follows for the bytes a writer has written.
-/

namespace Cccp

namespace Transfer

open Reader (ChunkPosition)

variable {cfg : Config} {keystream : UInt32 → Keystream} {s s' : State} {action : Action}
  {id : UInt32}

/-! ## What is genuine -/

/-- The start index of an attempt is that of a chunk, or the end of the file. -/
def Aligned (cfg : Config) (id : UInt32) (index : UInt64) : Prop :=
  transferBufferSize ∣ index.toNat ∧ index.toNat ≤ (cfg.source id).contents.length

/-- Every attempt of an id begins at a chunk and uses the keystream of the id. -/
def Keyed (cfg : Config) (keystream : UInt32 → Keystream) : Action → Prop
  | .start id index cipher | .retry id index cipher =>
      cipher.keystream = keystream id ∧ Aligned cfg id index
  | _ => True

/-- The frame carries a chunk of its file. -/
def Genuine (cfg : Config) (keystream : UInt32 → Keystream) (data : Bytes) : Prop :=
  let frame := Receiver.decodeFrame data
  let file := (cfg.source frame.1).contents
  transferBufferSize ∣ frame.2.index.toNat ∧ frame.2.index.toNat < file.length ∧
    CarriesData file (keystream frame.1) frame.2

/-- The loop of a reader stands at a chunk of its file, or it is through. -/
def Reading (cfg : Config) (keystream : UInt32 → Keystream) (id : UInt32) (r : Reader) : Prop :=
  r.next id = none ∨ ∃ position,
    r.At (cfg.source id).contents id (keystream id) position ∧ transferBufferSize ∣ position

/-- The reader goes through its file with the keystream of its id. -/
def ReaderGenuine (cfg : Config) (keystream : UInt32 → Keystream) (reader : Flow.ReaderTask) :
    Prop :=
  match reader.pc with
  | .opening file index cipher => file = cfg.source reader.id ∧
      cipher.keystream = keystream reader.id ∧ Aligned cfg reader.id index
  | .stopped => True
  | .acquiring r | .reading r | .queued _ r => Reading cfg keystream reader.id r

theorem ReaderGenuine.reading {reader : Flow.ReaderTask}
    (genuine : ReaderGenuine cfg keystream reader) {r : Reader}
    (held : reader.pc.reader? = some r) : Reading cfg keystream reader.id r := by
  unfold ReaderGenuine at genuine
  cases pc : reader.pc <;> rw [pc] at held genuine <;> cases held <;> exact genuine

theorem readerGenuine_of_reading {reader : Flow.ReaderTask} {r : Reader}
    (held : reader.pc.reader? = some r) (reading : Reading cfg keystream reader.id r) :
    ReaderGenuine cfg keystream reader := by
  unfold ReaderGenuine
  cases pc : reader.pc <;> rw [pc] at held <;> cases held <;> exact reading

theorem reading_start {index : UInt64} {cipher : StreamCipher}
    (own : cipher.keystream = keystream id) (aligned : Aligned cfg id index) :
    Reading cfg keystream id (Reader.start (cfg.source id).contents index id cipher) :=
  .inr ⟨index.toNat, own ▸ Reader.at_start cipher aligned.2, aligned.1⟩

/-- One iteration queues a genuine frame. -/
theorem Reading.next {r r' : Reader} {job : Sender.Job} (reading : Reading cfg keystream id r)
    (next : r.next id = some (job, r')) :
    Genuine cfg keystream job.data ∧ Reading cfg keystream id r' := by
  have fits : (cfg.source id).contents.length < 2 ^ 64 :=
    Nat.lt_trans (cfg.source id).fits (by decide)
  rcases reading with ended | ⟨position, at_, aligned⟩
  · rw [ended] at next
    cases next
  rcases Nat.lt_or_ge position (cfg.source id).contents.length with more | done
  · obtain ⟨job', next', read, own, index, carries, at'⟩ := at_.next fits more
    cases next.symm.trans read
    obtain ⟨id_eq, index_eq, data⟩ := carries.decodeFrame (Nat.lt_trans more fits)
    constructor
    · simp only [Genuine, CarriesData, id_eq, index_eq]
      exact ⟨aligned, more, data⟩
    · rcases Nat.lt_or_ge (position + transferBufferSize) (cfg.source id).contents.length with
        within | last
      · refine .inr ⟨_, at', ?_⟩
        rw [length_chunkAt, Nat.min_eq_left (by omega)]
        exact Nat.dvd_add aligned (Nat.dvd_refl _)
      · refine .inl (at'.next_end ?_)
        rw [length_chunkAt]
        omega
  · rw [at_.next_end done] at next
    cases next

/-! ## The invariant -/

/-- Everything in memory, on the network and at the writers is of the files. -/
structure Intact (cfg : Config) (keystream : UInt32 → Keystream) (s : State) : Prop where
  readers : ∀ reader ∈ s.flow.readers, ReaderGenuine cfg keystream reader
  jobs : Flow.Each (fun job => Genuine cfg keystream job.data) s.flow
  network : ∀ datagram ∈ s.network, Genuine cfg keystream datagram
  starting : ∀ id first cipher, s.attempts id = .starting first cipher →
    cipher.keystream = keystream id ∧ Aligned cfg id first
  writers : ∀ id first w, (s.attempts id).first? = some first →
    (s.attempts id).writer? = some w →
    Aligned cfg id first ∧ w.Running (cfg.source id).contents (keystream id) first.toNat

theorem intact_init : Intact cfg keystream (initial cfg) where
  readers := nofun
  jobs := Flow.each_init
  network := nofun
  starting := nofun
  writers := nofun

/-- A reader goes on. -/
theorem readerGenuine_advances {old reader : Flow.ReaderTask} {step : Flow.Action}
    (genuine : ReaderGenuine cfg keystream old) (advances : Flow.Advances step old reader) :
    ReaderGenuine cfg keystream reader := by
  cases advances with
  | same => exact genuine
  | opened pc =>
      rw [ReaderGenuine, pc] at genuine
      obtain ⟨rfl, own, aligned⟩ := genuine
      exact reading_start own aligned
  | unseekable | failed | ended => trivial
  | kept before after => exact readerGenuine_of_reading after (genuine.reading before)
  | read pc next =>
      have reading := genuine.reading (by rw [pc]; rfl)
      exact (reading.next next).2

theorem starts_of_isOwn {action : Flow.Action} (own : action.isOwn = true) :
    action.starts = false := by
  cases action with
  | start | restart => cases own
  | _ => rfl

/-- The sender's tasks take their own steps in the data path's. -/
theorem flow_step_of_next {action : Flow.Action}
    (next : step cfg s (.sender action) = some s') :
    Flow.step cfg.flow s.flow action = some s'.flow := by
  simp only [step] at next
  split at next
  next =>
    obtain ⟨flow, found, rfl⟩ := Option.map_eq_some_iff.mp next
    exact found
  next => cases next

theorem flow_step_of_confirm {k : ChunkKey} (next : step cfg s (.confirm k) = some s') :
    Flow.step cfg.flow s.flow (.confirm k) = some s'.flow := by
  simp only [step] at next
  split at next
  next =>
    cases next
    rfl
  next => cases next

/-- A step of the sender's tasks. -/
theorem Intact.flow (intact : Intact cfg keystream s) {flow : Flow.State} {step : Flow.Action}
    (going : step.starts = false) (next : Flow.step cfg.flow s.flow step = some flow) :
    (∀ reader ∈ flow.readers, ReaderGenuine cfg keystream reader) ∧
      Flow.Each (fun job => Genuine cfg keystream job.data) flow := by
  constructor
  · intro reader mem
    obtain ⟨old, mem, advances⟩ := Flow.advances_move going (Flow.step_cases next) mem
    exact readerGenuine_advances (intact.readers old mem) advances
  · refine Flow.each_move_of intact.jobs ?_ (Flow.step_cases next)
    intro j reader r r' job here pc next
    have reading := (intact.readers reader (List.mem_of_getElem? here)).reading (by rw [pc]; rfl)
    exact (reading.next next).1

/-- A new attempt begins. -/
theorem Intact.restart (intact : Intact cfg keystream s) {index : UInt64} {cipher : StreamCipher}
    {flow : Flow.State} (failures : List UInt32) (own : cipher.keystream = keystream id)
    (aligned : Aligned cfg id index)
    (readers : flow.readers = s.flow.readers ++ [⟨id, .opening (cfg.source id) index cipher⟩])
    (jobs : Flow.Each (fun job => Genuine cfg keystream job.data) flow) :
    Intact cfg keystream (({ s with failures := failures }.setFlow flow).setAttempt id
      (.starting index cipher)) := by
  refine ⟨?_, jobs, intact.network, ?_, ?_⟩
  · intro reader mem
    rcases List.mem_append.mp (readers ▸ mem) with mem | new
    · exact intact.readers reader mem
    · obtain rfl := List.mem_singleton.mp new
      exact ⟨rfl, own, aligned⟩
  · intro other first cipher' starting
    by_cases same : other = id
    · subst same
      rw [setAttempt_self] at starting
      cases starting
      exact ⟨own, aligned⟩
    · rw [setAttempt_ne _ same] at starting
      exact intact.starting other first cipher' starting
  · intro other first w begins writes
    by_cases same : other = id
    · subst same
      rw [setAttempt_self] at writes
      cases writes
    · rw [setAttempt_ne _ same] at begins writes
      exact intact.writers other first w begins writes

/-- The writer of an attempt goes on. -/
theorem Intact.setAttempt (intact : Intact cfg keystream s) (confirmations : List ChunkKey)
    (failures : List UInt32) {attempt : Attempt} {first : UInt64} {w : Writer}
    (begins : attempt.first? = some first) (writes : attempt.writer? = some w)
    (aligned : Aligned cfg id first)
    (running : w.Running (cfg.source id).contents (keystream id) first.toNat) :
    Intact cfg keystream ({ s with
      confirmations := confirmations, failures := failures }.setAttempt id attempt) := by
  refine ⟨intact.readers, intact.jobs, intact.network, ?_, ?_⟩
  · intro other first' cipher starting
    by_cases same : other = id
    · subst same
      rw [setAttempt_self] at starting
      rw [starting] at writes
      cases writes
    · rw [setAttempt_ne _ same] at starting
      exact intact.starting other first' cipher starting
  · intro other first' w' begins' writes'
    by_cases same : other = id
    · subst same
      rw [setAttempt_self] at begins' writes'
      cases begins.symm.trans begins'
      cases writes.symm.trans writes'
      exact ⟨aligned, running⟩
    · rw [setAttempt_ne _ same] at begins' writes'
      exact intact.writers other first' w' begins' writes'

/-! ## Runs -/

theorem intact_step (whole : ∀ id, (cfg.size id).toNat = (cfg.source id).contents.length)
    (intact : Intact cfg keystream s) (keyed : Keyed cfg keystream action)
    (next : step cfg s action = some s') : Intact cfg keystream s' := by
  have ⟨readers, jobs, network, starting, writers⟩ := intact
  cases step_cases next with
  | started fresh =>
      exact intact.restart s.failures keyed.1 keyed.2 rfl ⟨jobs.queued, jobs.held, jobs.cached⟩
  | retried failed known =>
      exact intact.restart _ keyed.1 keyed.2 rfl ⟨jobs.queued, jobs.held, jobs.cached⟩
  | @flowed action flow own move =>
      obtain ⟨readers', jobs'⟩ := intact.flow (starts_of_isOwn own) (flow_step_of_next next)
      refine ⟨readers', jobs', ?_, starting, writers⟩
      intro datagram mem
      rcases List.mem_append.mp mem with mem | new
      · exact network datagram mem
      · exact each_datagrams jobs action datagram new
  | @opened id first cipher here =>
      obtain ⟨own, aligned⟩ := starting id first cipher here
      refine intact.setAttempt s.confirmations s.failures rfl rfl aligned ?_
      have sound := Writer.sound_start cipher aligned.2
      rw [own] at sound
      exact ⟨sound, AList.notMem_empty _⟩
  | @handled index datagram id job first w mem frame here more =>
      obtain ⟨aligned, running⟩ := writers id first w (by rw [here]; rfl) (by rw [here]; rfl)
      obtain ⟨position, below, carries⟩ := network datagram mem
      rw [frame] at position below carries
      exact intact.setAttempt _ s.failures rfl rfl aligned
        (running.handle_any (whole id) aligned.1 position below carries)
  | ignored => exact intact
  | @mismatched id first w here _ =>
      obtain ⟨aligned, running⟩ := writers id first w (by rw [here]; rfl) (by rw [here]; rfl)
      exact intact.setAttempt s.confirmations _ rfl rfl aligned running
  | @failed id first w here =>
      obtain ⟨aligned, running⟩ := writers id first w (by rw [here]; rfl) (by rw [here]; rfl)
      exact intact.setAttempt s.confirmations s.failures rfl rfl aligned running
  | confirmed mem _ =>
      obtain ⟨readers', jobs'⟩ := intact.flow rfl (flow_step_of_confirm next)
      exact ⟨readers', jobs', network, starting, writers⟩

theorem intact_reached (whole : ∀ id, (cfg.size id).toNat = (cfg.source id).contents.length)
    (reached : (machine cfg).ReachableVia (fun _ action => Keyed cfg keystream action) s) :
    Intact cfg keystream s := by
  refine reached.invariant ?_ ?_
  · intro s start
    rw [start]
    exact intact_init
  · intro s a s' _ intact keyed next
    exact intact_step whole intact keyed next

/-- **The data path keeps files intact.**  Whatever becomes of the datagrams, and however
often a transfer is started again: what a writer has written since its attempt began is the
source from the start index to its position, also when its datagrams are those of earlier
attempts, and a writer that is through has written the rest of the file. -/
theorem transfer_intact (whole : ∀ id, (cfg.size id).toNat = (cfg.source id).contents.length)
    (reached : (machine cfg).ReachableVia (fun _ action => Keyed cfg keystream action) s)
    {id : UInt32} {first : UInt64} {w : Writer} (begins : (s.attempts id).first? = some first)
    (writes : (s.attempts id).writer? = some w) :
    first ≤ w.position ∧ w.position ≤ cfg.size id ∧
      w.output = ((cfg.source id).contents.drop first.toNat).take
        (w.position.toNat - first.toNat) ∧
      (w.position = cfg.size id → w.output = (cfg.source id).contents.drop first.toNat) := by
  have intact := intact_reached whole reached
  have running := (intact.writers id first w begins writes).2
  refine ⟨UInt64.le_iff_toNat_le.mpr running.from_first, UInt64.le_iff_toNat_le.mpr ?_,
    running.output_eq, fun complete => running.output_complete (whole id) complete⟩
  rw [whole id]
  exact running.within

/-- The chunk is written, the hash is not the sender's, and the chunk's datagram arrives
again in the next attempt. -/
def sentAgain : List Action :=
  sentOnce ++ [.mismatch 0, .retry 0 0 ⟨fun _ => 0, 0, none⟩, .open_ 0, .deliver 0]

def wroteAll (s : State) : Bool :=
  match s.attempts 0 with
  | .running first w => decide (first = 0 ∧ w.position = 1)
  | _ => false

theorem keyed_sentAgain : ∀ action ∈ sentAgain, Keyed oneChunk (fun _ _ => 0) action := by
  have aligned : Aligned oneChunk 0 0 := ⟨⟨0, rfl⟩, Nat.zero_le _⟩
  simp [sentAgain, sentOnce, Keyed, aligned]

theorem transfer_intact_sentAgain : ∃ s w,
    (machine oneChunk).run (initial oneChunk) sentAgain = some s ∧
      s.attempts 0 = .running 0 w ∧ w.output = (oneChunk.source 0).contents := by
  have passed : ((machine oneChunk).run (initial oneChunk) sentAgain).any wroteAll = true := by
    decide +kernel
  obtain ⟨s, ran, test⟩ := (Option.any_eq_true _ _).mp passed
  unfold wroteAll at test
  split at test
  next first w here =>
    obtain ⟨rfl, complete⟩ := of_decide_eq_true test
    have reached := (Machine.ReachableVia.init rfl).runAll (fun action mem _ =>
      keyed_sentAgain action mem) ran
    have begins : (s.attempts 0).first? = some 0 := by
      rw [here]
      rfl
    have writes : (s.attempts 0).writer? = some w := by
      rw [here]
      rfl
    have whole := (transfer_intact (fun _ => rfl) reached begins writes).2.2.2
    exact ⟨s, w, ran, here, whole complete⟩
  next => cases test

end Transfer

end Cccp
