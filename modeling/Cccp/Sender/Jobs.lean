import Cccp.Sender.Permits

/-!
# What the steps do to the jobs

Three facts about every step of the sender's tasks.  A job is made by a reader and only
moved afterwards (`each_move`, `mem_produced_move`); a reader keeps going through the
file it was started on (`From.move`); and of the keys, a step retires one, records a lost
confirmation, or leaves them alone (`Effect`).
-/

namespace Cccp

namespace Flow

open Reader (ChunkPosition)

variable {cfg : Config} {s s' : State} {action : Action}

/-! ## Readers -/

/-- The reader goes through `source` from `first` on. -/
def ReaderTask.From (source : SourceFile) (first : UInt64) (reader : ReaderTask) : Prop :=
  match reader.pc with
  | .opening file index _ => file = source ∧ index = first
  | .stopped => True
  | .acquiring r | .reading r | .queued _ r => r.Walks source.contents first.toNat reader.id

theorem ReaderTask.From.walks {source : SourceFile} {first : UInt64} {reader : ReaderTask}
    (from_ : reader.From source first) {r : Reader} (held : reader.pc.reader? = some r) :
    r.Walks source.contents first.toNat reader.id := by
  unfold ReaderTask.From at from_
  cases pc : reader.pc <;> rw [pc] at held from_ <;> cases held <;> exact from_

/-- The reader `old` goes on as `new`. -/
structure Continues (old new : ReaderTask) : Prop where
  id : new.id = old.id
  active : new.active = true → old.active = true
  from_ : ∀ source first, old.From source first → new.From source first

theorem Continues.refl (reader : ReaderTask) : Continues reader reader :=
  ⟨rfl, fun h => h, fun _ _ h => h⟩

/-- A step other than a start gives every reader a predecessor. -/
theorem continues_setReader {j : Nat} {reader : ReaderTask} {pc : ReaderPc}
    (here : s.readers[j]? = some reader) {other : ReaderTask}
    (mem : other ∈ s.readers.set j ⟨reader.id, pc⟩)
    (continues : Continues reader ⟨reader.id, pc⟩) :
    ∃ old ∈ s.readers, Continues old other := by
  rcases List.mem_or_eq_of_mem_set mem with mem | rfl
  · exact ⟨other, mem, .refl other⟩
  · exact ⟨reader, List.mem_of_getElem? here, continues⟩

/-- Whether an action spawns a reader. -/
def Action.starts : Action → Bool
  | .start .. | .restart .. => true
  | _ => false

theorem continues_move (going : action.starts = false) (move : Move cfg s action s')
    {reader : ReaderTask} (mem : reader ∈ s'.readers) :
    ∃ old ∈ s.readers, Continues old reader := by
  cases move with
  | started | restarted => cases going
  | @opened j old file index cipher here pc _ =>
      refine continues_setReader here mem ⟨rfl, fun live => ?_, fun source first from_ => ?_⟩
      · rw [ReaderTask.active, pc]
        exact live
      · rw [ReaderTask.From, pc] at from_
        obtain ⟨rfl, rfl⟩ := from_
        exact Reader.walks_start _ _ _ _
  | unseekable here pc _ | unopened here pc =>
      exact continues_setReader here mem ⟨rfl, by rintro ⟨⟩, fun _ _ _ => trivial⟩
  | ended here pc => exact continues_setReader here mem ⟨rfl, by rintro ⟨⟩, fun _ _ _ => trivial⟩
  | acquired here pc _ | forgot here pc =>
      refine continues_setReader here mem ⟨rfl, fun live => ?_, fun source first from_ => ?_⟩
      · rw [ReaderTask.active, pc]
        exact live
      · rw [ReaderTask.From, pc] at from_
        exact from_
  | produced here pc next _ =>
      refine continues_setReader here mem ⟨rfl, fun _ => ?_, fun source first from_ => ?_⟩
      · rw [ReaderTask.active, pc]
        simp only [next, Option.isSome_some]
      · rw [ReaderTask.From, pc] at from_
        exact (from_.next (Nat.lt_trans source.fits (by decide)) next).2.2.2.2.2
  | permitted | sendAcquired | received | sent | sendFailed | cached | confirmed | lost
  | requeued | late | gone => exact ⟨reader, mem, .refl reader⟩

/-- What a step makes of a reader. -/
inductive Advances (action : Action) (old : ReaderTask) : ReaderTask → Prop
  | same : Advances action old old
  | opened {file : SourceFile} {index : UInt64} {cipher : StreamCipher}
      (pc : old.pc = .opening file index cipher) :
      Advances action old ⟨old.id, .acquiring (Reader.start file.contents index old.id cipher)⟩
  | unseekable {file : SourceFile} {index : UInt64} {cipher : StreamCipher}
      (pc : old.pc = .opening file index cipher) (past : cipher.past index.toNat = true) :
      Advances action old ⟨old.id, .stopped⟩
  | failed {j : Nat} (fails : action = .readerFails j) : Advances action old ⟨old.id, .stopped⟩
  | ended {r : Reader} (pc : old.pc = .reading r)
      (done : ∀ job r', r.next old.id = some (job, r') → r'.cipher.past r'.cipher.offset = true) :
      Advances action old ⟨old.id, .stopped⟩
  | kept {pc : ReaderPc} {r : Reader} (before : old.pc.reader? = some r)
      (after : pc.reader? = some r) : Advances action old ⟨old.id, pc⟩
  | read {r r' : Reader} {job : Sender.Job} (pc : old.pc = .reading r)
      (next : r.next old.id = some (job, r')) :
      Advances action old ⟨old.id, .queued job.index r'⟩

theorem advances_setReader {j : Nat} {reader : ReaderTask} {pc : ReaderPc}
    (here : s.readers[j]? = some reader) {other : ReaderTask}
    (mem : other ∈ s.readers.set j ⟨reader.id, pc⟩)
    (advances : Advances action reader ⟨reader.id, pc⟩) :
    ∃ old ∈ s.readers, Advances action old other := by
  rcases List.mem_or_eq_of_mem_set mem with mem | rfl
  · exact ⟨other, mem, .same⟩
  · exact ⟨reader, List.mem_of_getElem? here, advances⟩

theorem advances_move (going : action.starts = false) (move : Move cfg s action s')
    {reader : ReaderTask} (mem : reader ∈ s'.readers) :
    ∃ old ∈ s.readers, Advances action old reader := by
  cases move with
  | started | restarted => cases going
  | opened here pc _ => exact advances_setReader here mem (.opened pc)
  | unseekable here pc past => exact advances_setReader here mem (.unseekable pc past)
  | unopened here pc => exact advances_setReader here mem (.failed rfl)
  | ended here pc stops =>
      rcases stops with rfl | ⟨rfl, done⟩
      · exact advances_setReader here mem (.failed rfl)
      · exact advances_setReader here mem (.ended pc done)
  | acquired here pc _ | forgot here pc =>
      exact advances_setReader here mem (.kept (by rw [pc]; rfl) rfl)
  | produced here pc read _ => exact advances_setReader here mem (.read pc read)
  | permitted | sendAcquired | received | sent | sendFailed | cached | confirmed | lost
  | requeued | late | gone => exact ⟨reader, mem, .same⟩

/-- An active reader comes to a chunk next. -/
theorem ReaderTask.From.next_chunk {source : SourceFile} {first : UInt64} {reader : ReaderTask}
    (from_ : reader.From source first) (live : reader.active = true) :
    ∃ index : UInt64, ChunkPosition source.contents first.toNat index.toNat ∧
      ∀ r, reader.pc.reader? = some r → r.index = index := by
  have fits : source.contents.length < 2 ^ 64 := Nat.lt_trans source.fits (by decide)
  have chunk : ∀ r : Reader, r.Walks source.contents first.toNat reader.id →
      (r.next reader.id).isSome = true →
      ChunkPosition source.contents first.toNat r.index.toNat := by
    intro r walks more
    obtain ⟨⟨job, r'⟩, next⟩ := Option.isSome_iff_exists.mp more
    obtain ⟨-, same, -, position, -⟩ := walks.next fits next
    exact same ▸ position
  unfold ReaderTask.From at from_
  unfold ReaderTask.active at live
  cases pc : reader.pc with
  | opening file index cipher =>
      rw [pc] at from_ live
      obtain ⟨rfl, rfl⟩ := from_
      exact ⟨_, chunk _ (Reader.walks_start _ _ _ _) live, by rintro _ ⟨⟩⟩
  | stopped =>
      rw [pc] at live
      cases live
  | acquiring r | reading r | queued _ r =>
      rw [pc] at from_ live
      exact ⟨_, chunk r from_ live, fun _ held => (Option.some.inj held) ▸ rfl⟩

/-! ## Jobs -/

/-- A reader is about to queue the job. -/
def Made (s : State) (job : Sender.Job) : Prop :=
  ∃ reader ∈ s.readers, reader.id = job.id ∧ reader.active = true ∧
    ∀ source first, reader.From source first →
      ChunkPosition source.contents first.toNat job.index.toNat ∧
        ∃ keystream, CarriesChunk source.contents job.id keystream job.index.toNat job.data

theorem made_of_next {j : Nat} {reader : ReaderTask} {r r' : Reader} {job : Sender.Job}
    (here : s.readers[j]? = some reader) (pc : reader.pc = .reading r)
    (next : r.next reader.id = some (job, r')) : Made s job := by
  have own := Reader.next_id next
  refine ⟨reader, List.mem_of_getElem? here, own.symm, ?_, fun source first from_ => ?_⟩
  · rw [ReaderTask.active, pc]
    simp only [next, Option.isSome_some]
  · rw [ReaderTask.From, pc] at from_
    obtain ⟨-, -, -, chunk, carries, -⟩ := from_.next (Nat.lt_trans source.fits (by decide)) next
    exact ⟨chunk, own ▸ carries⟩

/-- Every job in memory has the property. -/
structure Each (P : Sender.Job → Prop) (s : State) : Prop where
  queued : ∀ job ∈ s.queue, P job
  held : ∀ task ∈ s.tasks, ∀ job, task.pc.job? = some job → P job
  cached : ∀ k job, s.cache.lookup k = some job → P job

variable {P : Sender.Job → Prop}

theorem Each.setTask (each : Each P s) {t : Nat} {task' : SenderTask}
    (own : ∀ job, task'.pc.job? = some job → P job) :
    ∀ task ∈ s.tasks.set t task', ∀ job, task.pc.job? = some job → P job := by
  intro task mem
  rcases List.mem_or_eq_of_mem_set mem with mem | rfl
  · exact each.held task mem
  · exact own

theorem again_job? (retries : Nat) : (TaskPc.again cfg retries).job? = none := by
  unfold TaskPc.again
  split <;> rfl

theorem Each.erase (each : Each P s) (key k : ChunkKey) (job : Sender.Job)
    (found : (s.cache.erase key).lookup k = some job) : P job :=
  each.cached k job (lookup_of_lookup_erase found)

/-- Jobs come out of the readers' loops; the other steps move them. -/
theorem each_move_of (each : Each P s)
    (read : ∀ (j : Nat) (reader : ReaderTask) (r r' : Reader) (job : Sender.Job),
      s.readers[j]? = some reader → reader.pc = .reading r →
      r.next reader.id = some (job, r') → P job)
    (move : Move cfg s action s') : Each P s' := by
  cases move with
  | @produced j reader r r' job here pc next _ =>
      refine ⟨fun other mem => ?_, each.held, each.cached⟩
      rcases List.mem_append.mp mem with mem | new
      · exact each.queued other mem
      · obtain rfl := List.mem_singleton.mp new
        exact read j reader r r' _ here pc next
  | sendAcquired here pc => exact ⟨each.queued, each.setTask nofun, each.cached⟩
  | @received t task job rest here pc queue =>
      refine ⟨fun other mem => each.queued other (queue ▸ List.mem_cons_of_mem _ mem),
        each.setTask fun other held => ?_, each.cached⟩
      cases held
      exact each.queued job (queue ▸ List.mem_cons_self)
  | @sent t task job here pc =>
      refine ⟨each.queued, each.setTask fun other held => ?_, each.cached⟩
      exact each.held task (List.mem_of_getElem? here) other (by rw [pc]; exact held)
  | @sendFailed t task job here pc =>
      refine ⟨fun other mem => ?_, each.setTask fun other held => ?_, each.cached⟩
      · rcases List.mem_append.mp mem with mem | new
        · exact each.queued other mem
        · obtain rfl := List.mem_singleton.mp new
          exact each.held task (List.mem_of_getElem? here) _ (by rw [pc]; rfl)
      · rw [again_job?] at held
        cases held
  | @cached t task job here pc =>
      refine ⟨each.queued, each.setTask fun other held => ?_, fun k other found => ?_⟩
      · rw [again_job?] at held
        cases held
      · rcases lookup_insert_cases found with ⟨rfl, rfl⟩ | found
        · exact each.held task (List.mem_of_getElem? here) _ (by rw [pc]; rfl)
        · exact each.cached k other found
  | confirmed => exact ⟨each.queued, each.held, each.erase _⟩
  | @requeued k job found unconfirmed =>
      refine ⟨fun other mem => ?_, each.held, each.erase _⟩
      rcases List.mem_append.mp mem with mem | new
      · exact each.queued other mem
      · obtain rfl := List.mem_singleton.mp new
        exact each.cached k _ found
  | late => exact ⟨each.queued, each.held, each.erase _⟩
  | started | restarted | opened | unseekable | unopened | ended | acquired | forgot | permitted
  | lost | gone => exact ⟨each.queued, each.held, each.cached⟩

/-- Jobs are made by the readers; the other steps move them. -/
theorem each_move (each : Each P s) (made : ∀ job, Made s job → P job)
    (move : Move cfg s action s') : Each P s' :=
  each_move_of each (fun _ _ _ _ job here pc next => made job (made_of_next here pc next)) move

theorem each_init : Each P (initial cfg) := by
  refine ⟨nofun, fun task mem job held => ?_, fun k job found => ?_⟩
  · obtain rfl := (List.mem_replicate.mp mem).2
    rw [again_job?] at held
    cases held
  · cases found

/-- What is queued for the first time was made by a reader. -/
theorem mem_produced_move (move : Move cfg s action s') {k : ChunkKey} (mem : k ∈ s'.produced) :
    k ∈ s.produced ∨ ∃ job, Made s job ∧ key job = k := by
  cases move with
  | restarted => exact .inl (List.mem_of_mem_filter mem)
  | @produced j reader r r' job here pc next _ =>
      rcases List.mem_append.mp mem with mem | new
      · exact .inl mem
      · exact .inr ⟨job, made_of_next here pc next, (List.mem_singleton.mp new).symm⟩
  | started | opened | unseekable | unopened | ended | acquired | forgot | permitted | sendAcquired
  | received | sent | sendFailed | cached | confirmed | lost | requeued | late | gone =>
      exact .inl mem

/-- What was started stays so. -/
theorem started_subset (move : Move cfg s action s') : s.started ⊆ s'.started := by
  cases move with
  | started | restarted => exact List.subset_append_left _ _
  | _ => exact List.Subset.refl _

/-! ## Keys -/

/-- What a step does to the keys. -/
inductive Effect (s : State) (action : Action) (s' : State) : Prop
  | kept (produced : s.produced ⊆ s'.produced) (lost : s'.lost = s.lost)
      (retired : s'.retired = s.retired)
  | confirmed {k : ChunkKey} (confirms : action = .confirm k) (mem : k ∈ s.cache)
      (produced : s'.produced = s.produced) (lost : s'.lost = s.lost)
      (retired : s'.retired = s.retired ++ [k])
  | lost {k : ChunkKey} (confirms : action = .confirm k) (absent : k ∉ s.cache)
      (produced : s'.produced = s.produced) (lost : s'.lost = insert k s.lost)
      (retired : s'.retired = s.retired)
  | late {k : ChunkKey} (mem : k ∈ s.lost) (produced : s'.produced = s.produced)
      (lost : s'.lost = s.lost.erase k) (retired : s'.retired = s.retired ++ [k])

theorem effect_of_move (once : action.startsOnce = true) (move : Move cfg s action s') :
    Effect s action s' := by
  cases move with
  | restarted => cases once
  | produced => exact .kept (List.subset_append_left _ _) rfl rfl
  | confirmed mem => exact .confirmed rfl mem rfl rfl rfl
  | lost absent => exact .lost rfl absent rfl rfl rfl
  | late mem confirmed => exact .late confirmed rfl rfl rfl
  | started | opened | unseekable | unopened | ended | acquired | forgot | permitted | sendAcquired
  | received | sent | sendFailed | cached | requeued | gone => exact .kept (List.Subset.refl _) rfl rfl

theorem recorded_of_confirm {k : ChunkKey} (move : Move cfg s (.confirm k) s') :
    k ∈ s'.lost ∨ k ∈ s'.retired := by
  cases move with
  | ended here pc stops => rcases stops with stops | ⟨stops, -⟩ <;> cases stops
  | confirmed mem => exact .inr (List.mem_append_right _ (List.mem_singleton_self _))
  | lost absent => exact .inl (Finset.mem_insert_self _ _)

/-- What was queued stays so after every step but a new start. -/
theorem Effect.produced_subset (effect : Effect s action s') : s.produced ⊆ s'.produced := by
  cases effect with
  | kept produced => exact produced
  | confirmed _ _ produced | lost _ _ produced | late _ produced =>
      rw [produced]
      exact List.Subset.refl _

/-- What counts as confirmed does so after every step but a new start. -/
theorem Effect.keeps (effect : Effect s action s') {k : ChunkKey}
    (listed : k ∈ s.lost ∨ k ∈ s.retired) : k ∈ s'.lost ∨ k ∈ s'.retired := by
  cases effect with
  | kept produced lost retired => rwa [lost, retired]
  | confirmed confirms mem produced lost retired =>
      rw [lost, retired]
      exact listed.imp_right (List.mem_append_left _)
  | lost confirms absent produced lost retired =>
      rw [lost, retired]
      exact listed.imp_left Finset.mem_insert_of_mem
  | @late key mem produced lost retired =>
      rw [lost, retired]
      by_cases same : k = key
      · exact .inr (List.mem_append_right _ (List.mem_singleton.mpr same))
      · exact listed.imp (fun there => Finset.mem_erase.mpr ⟨same, there⟩) (List.mem_append_left _)

/-- What counts as confirmed after a step did so before, or was confirmed by it. -/
theorem Effect.listed (effect : Effect s action s') {k : ChunkKey}
    (listed : k ∈ s'.lost ∨ k ∈ s'.retired) : action = .confirm k ∨ k ∈ s.lost ∨ k ∈ s.retired := by
  cases effect with
  | kept produced lost retired =>
      rw [lost, retired] at listed
      exact .inr listed
  | confirmed confirms mem produced lost retired =>
      rw [lost, retired, List.mem_append, List.mem_singleton] at listed
      rcases listed with mem | mem | rfl
      · exact .inr (.inl mem)
      · exact .inr (.inr mem)
      · exact .inl confirms
  | lost confirms absent produced lost retired =>
      rw [lost, retired, Finset.mem_insert] at listed
      rcases listed with (rfl | mem) | mem
      · exact .inl confirms
      · exact .inr (.inl mem)
      · exact .inr (.inr mem)
  | late mem produced lost retired =>
      rw [lost, retired, Finset.mem_erase, List.mem_append, List.mem_singleton] at listed
      rcases listed with ⟨-, mem⟩ | mem | rfl
      · exact .inr (.inl mem)
      · exact .inr (.inr mem)
      · exact .inr (.inl mem)

end Flow

end Cccp
