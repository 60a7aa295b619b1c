import Cccp.Lib.BufWriter
import Cccp.Receiver.Target
import Cccp.ResumeBounds

/-!
# What an interrupted receiver leaves over

A receiver may be killed at any step, and what its `BufWriter`s hold is lost.  `Target.Left`
says what is then on the disk of a file, over `Target.Holds`: a front of the source, and whole
chunks of it while the task receives, since the `BufWriter` passes on what it was given in
whole pieces (`Writer.dvd_passes`).
-/

namespace Cccp

namespace Writer

/-- The lengths of what a round of the loop hands to the `BufWriter`. -/
def pieces (size : UInt64) (w : Writer) (job : Receiver.Job) : List Nat :=
  (handleWrites size w job).map fun v => lenAt size v.position.toNat

/-- What a `BufWriter` that holds `held` bytes passes on to the file in a round. -/
def passes (size : UInt64) (held : Nat) (w : Writer) (job : Receiver.Job) : Nat :=
  BufWriter.passedAll writeBufferSize held (w.pieces size job)

variable {file : Bytes} {keystream : Keystream} {first : Nat} {size : UInt64} {w : Writer}
  {job : Receiver.Job}

theorem lenAt_lt (size : UInt64) (position : Nat) : lenAt size position < writeBufferSize :=
  Nat.lt_of_le_of_lt (Nat.min_le_right _ _) (by decide)

/-- A write that another one follows has a whole chunk. -/
theorem lenAt_eq_of_below (within : w.Within size) (buffer : Bytes)
    (below : (w.writeData buffer size).position.toNat < size.toNat) :
    lenAt size w.position.toNat = transferBufferSize := by
  rw [position_writeData within, lenAt] at below
  rw [lenAt]
  omega

/-- What is drained next is a chunk of the file. -/
theorem Sound.below_of_drainWrites (sound : w.Sound file keystream first)
    (whole : size.toNat = file.length) {fuel : Nat} (more : drainWrites size fuel w ≠ []) :
    w.position.toNat < size.toNat := by
  cases fuel with
  | zero => exact absurd rfl more
  | succ fuel =>
      rw [drainWrites] at more
      cases found : w.cache.lookup w.position with
      | none =>
          rw [found] at more
          exact absurd rfl more
      | some job => exact whole ▸ (sound.cached _ _ found).2.1.2.1

theorem Sound.within' (sound : w.Sound file keystream first) (whole : size.toNat = file.length) :
    w.Within size := by
  have inside := sound.within
  unfold Within
  omega

theorem forall_mem_dropLast_cons {P : Writer → Prop} {rest : List Writer}
    (first : rest ≠ [] → P w) (later : ∀ v ∈ rest.dropLast, P v) :
    ∀ v ∈ (w :: rest).dropLast, P v := by
  cases rest with
  | nil => exact List.forall_mem_nil _
  | cons next rest =>
      rw [List.dropLast_cons_cons]
      exact List.forall_mem_cons.mpr ⟨first (List.cons_ne_nil _ _), later⟩

theorem Sound.units_drainWrites {fuel : Nat} (sound : w.Sound file keystream first)
    (whole : size.toNat = file.length) :
    ∀ v ∈ (drainWrites size fuel w).dropLast, lenAt size v.position.toNat = transferBufferSize := by
  induction fuel generalizing w with
  | zero => exact List.forall_mem_nil _
  | succ fuel ih =>
      rw [drainWrites]
      cases found : w.cache.lookup w.position with
      | none => exact List.forall_mem_nil _
      | some job =>
          obtain ⟨here, chunk, carries⟩ := sound.cached _ _ found
          have erased : Sound file keystream first
              { w with cache := w.cache.erase w.position } := by
            refine { sound with cached := fun index job found => ?_ }
            exact sound.cached index job (lookup_of_lookup_erase found)
          have written := erased.writeData whole here chunk.2.1 carries
          refine forall_mem_dropLast_cons (fun more => ?_) (ih written)
          exact lenAt_eq_of_below (erased.within' whole) job.data
            (written.below_of_drainWrites whole more)

/-- All writes of a round but the last have whole chunks. -/
theorem Sound.units_handleWrites (sound : w.Sound file keystream first)
    (whole : size.toNat = file.length) (below : job.index.toNat < file.length)
    (carries : CarriesData file keystream job) :
    ∀ v ∈ (handleWrites size w job).dropLast,
      lenAt size v.position.toNat = transferBufferSize := by
  rw [handleWrites]
  split
  next => exact List.forall_mem_nil _
  next atPosition =>
    have here : job.index = w.position := by
      rw [not_or, UInt64.lt_iff_toNat_lt, UInt64.lt_iff_toNat_lt] at atPosition
      exact UInt64.toNat_inj.mp (by omega)
    have written := sound.writeData whole here (here ▸ below) carries
    have confirmed : ((w.writeData job.data size).confirm job.index).Sound file keystream first :=
      { written with }
    refine forall_mem_dropLast_cons (fun more => ?_) (confirmed.units_drainWrites whole)
    exact lenAt_eq_of_below (sound.within' whole) job.data
      (confirmed.below_of_drainWrites whole more)

/-- The `BufWriter` passes on whole chunks, if it holds whole chunks. -/
theorem Sound.dvd_passes (sound : w.Sound file keystream first)
    (whole : size.toNat = file.length) (below : job.index.toNat < file.length)
    (carries : CarriesData file keystream job) {held : Nat} (chunks : transferBufferSize ∣ held) :
    transferBufferSize ∣ w.passes size held job := by
  refine BufWriter.dvd_passedAll ?_ chunks ?_
  · intro count mem
    obtain ⟨v, -, rfl⟩ := List.mem_map.mp mem
    exact lenAt_lt size _
  · intro count mem
    rw [pieces, ← List.map_dropLast] at mem
    obtain ⟨v, there, rfl⟩ := List.mem_map.mp mem
    rw [sound.units_handleWrites whole below carries v there]

/-! ### Lengths -/

theorem position_drain {fuel : Nat} (within : w.Within size) :
    (w.drain size fuel).position.toNat = w.position.toNat +
      ((drainWrites size fuel w).map fun v => lenAt size v.position.toNat).sum := by
  induction fuel generalizing w with
  | zero => rfl
  | succ fuel ih =>
      rw [Writer.drain, drainWrites]
      cases found : w.cache.lookup w.position with
      | none => rfl
      | some job =>
          have erased : Within size { w with cache := w.cache.erase w.position } := within
          have next := ih (erased.writeData job.data)
          rw [position_writeData erased, Nat.add_assoc] at next
          rw [List.map_cons, List.sum_cons]
          exact next

/-- A round advances by what it writes. -/
theorem position_handle (within : w.Within size) (job : Receiver.Job) :
    (w.handle size job).position.toNat = w.position.toNat + (w.pieces size job).sum := by
  rw [Writer.handle, pieces, handleWrites]
  split
  next behind =>
    rw [if_pos (.inl behind)]
    rfl
  next notBehind =>
    split
    next ahead =>
      rw [if_pos (.inr ahead)]
      rfl
    next notAhead =>
      rw [if_neg (not_or_intro notBehind notAhead)]
      have written : ((w.writeData job.data size).confirm job.index).Within size :=
        within.writeData job.data
      rw [position_drain written, List.map_cons, List.sum_cons, ← Nat.add_assoc,
        ← position_writeData within job.data]
      rfl

/-- A write outputs no more than it advances. -/
theorem length_output_writeData (within : w.Within size) (buffer : Bytes) :
    (w.writeData buffer size).output.length + w.position.toNat ≤
      w.output.length + (w.writeData buffer size).position.toNat := by
  rw [position_writeData within]
  simp only [writeData, List.length_append, StreamCipher.length_applyKeystream, List.length_take,
    toNat_len within]
  have short := Nat.min_le_left (lenAt size w.position.toNat) buffer.length
  omega

theorem length_output_drain {fuel : Nat} (within : w.Within size) :
    (w.drain size fuel).output.length + w.position.toNat ≤
      w.output.length + (w.drain size fuel).position.toNat := by
  induction fuel generalizing w with
  | zero => exact Nat.le_refl _
  | succ fuel ih =>
      rw [drain]
      cases found : w.cache.lookup w.position with
      | none => exact Nat.le_refl _
      | some job =>
          have erased : Within size { w with cache := w.cache.erase w.position } := within
          have written := length_output_writeData erased job.data
          have later := ih (erased.writeData job.data)
          dsimp only at written later ⊢
          omega

/-- A round outputs no more than it advances. -/
theorem length_output_handle (within : w.Within size) (job : Receiver.Job) :
    (w.handle size job).output.length + w.position.toNat ≤
      w.output.length + (w.handle size job).position.toNat := by
  rw [handle]
  split
  next => exact Nat.le_refl _
  next =>
    split
    next => exact Nat.le_refl _
    next =>
      have within' : ((w.writeData job.data size).confirm job.index).Within size :=
        within.writeData job.data
      have written := length_output_writeData within job.data
      have later := @length_output_drain size _ (w.writeData job.data size).cache.entries.length
        within'
      simp only [confirm] at later ⊢
      omega
end Writer

/-! ## What is left of a file -/

namespace Phase

/-- The task has flushed its `BufWriter` for the last time, and has not renamed the file; or it
has failed. -/
def late : Phase → Bool
  | .popping | .hashing _ | .notifying | .removing | .moving => true
  | .failing .. | .finished (.failed _) | .panicked => true
  | _ => false

end Phase

/-- The `BufWriter` passes on what it must, unless a write fails. -/
def WriterTask.Buffers (task : WriterTask) : TaskAction → Prop
  | .job job passed =>
      match task.phase with
      | .receiving _ _ buffered writer =>
          passed = writer.passes task.details.size buffered.length job
      | _ => True
  | _ => True

namespace Target

open FileSystem (Apart Keeps)

variable (t : Target)

/-- The partial path has a front of the source. -/
def Front (disk : FileSystem Path) : Prop :=
  (disk.read t.details.partialPath).getD [] <+: t.source

def Left (disk : FileSystem Path) : Phase → Prop
  | .receiving file _ _ _ => transferBufferSize ∣ (disk.contents file).length
  | .ending | .finished .renamed => disk.read t.details.partialPath = none
  | .failing .. | .finished (.failed _) | .panicked => t.Front disk
  | _ => True

variable {t} {disk disk' : FileSystem Path} {phase : Phase} {shared shared' : Shared}
  {task task' : WriterTask} {action : TaskAction}

/-- What is left over and what has been written are a front of the source. -/
theorem Runs.front {writer : Writer} (runs : t.Runs writer) :
    t.leftover ++ writer.output <+: t.source := by
  rw [runs.output_eq, leftover, ← List.take_add]
  exact List.take_prefix _ _

theorem Partial.read {file : Nat} {bytes : Bytes} (partial_ : t.Partial disk file bytes) :
    disk.read t.details.partialPath = some bytes := by
  rw [FileSystem.read_of_entries partial_.1, partial_.2]

/-- At every operation the partial path has a front of the source. -/
theorem Holds.front (holds : t.Holds disk phase) (left : t.Left disk phase) : t.Front disk := by
  have start : t.leftover <+: t.source := List.take_prefix _ _
  unfold Front
  cases phase with
  | opening => rwa [holds.2]
  | seeking file => rwa [holds.2.read]
  | subscribing file writer => rwa [holds.2.1.read]
  | receiving file queue buffered writer =>
      obtain ⟨-, runs, passed, partial_, held⟩ := holds
      rw [partial_.read]
      exact (held ▸ List.prefix_append passed buffered).trans runs.front
  | popping | moving =>
      rw [holds.2]
      exact List.prefix_rfl
  | hashing signature =>
      rw [holds.2.1]
      exact List.prefix_rfl
  | ending =>
      have none_ : disk.read t.details.partialPath = none := left
      rw [none_]
      exact List.nil_prefix
  | failing signature error => exact left
  | finished outcome =>
      cases outcome with
      | renamed =>
          have none_ : disk.read t.details.partialPath = none := left
          rw [none_]
          exact List.nil_prefix
      | failed signature => exact left
  | panicked => exact left
  | notifying | removing => exact absurd holds id

/-- And unless it is late, whole chunks of it. -/
theorem Holds.chunks (holds : t.Holds disk phase) (left : t.Left disk phase)
    (early : phase.late = false) :
    transferBufferSize ∣ ((disk.read t.details.partialPath).getD []).length := by
  have start : transferBufferSize ∣ t.leftover.length := length_leftover ▸ t.begins
  cases phase with
  | opening => rwa [holds.2]
  | seeking file => rwa [holds.2.read]
  | subscribing file writer => rwa [holds.2.1.read]
  | receiving file queue buffered writer =>
      obtain ⟨-, -, passed, partial_, -⟩ := holds
      have left : transferBufferSize ∣ (disk.contents file).length := left
      rw [partial_.2] at left
      rwa [partial_.read]
  | ending =>
      have none_ : disk.read t.details.partialPath = none := left
      rw [none_]
      exact Nat.dvd_zero _
  | finished outcome =>
      cases outcome with
      | renamed =>
          have none_ : disk.read t.details.partialPath = none := left
          rw [none_]
          exact Nat.dvd_zero _
      | failed signature => cases early
  | popping | hashing | notifying | removing | moving | failing | panicked => cases early

/-! ### Steps -/

theorem Left.keeps (left : t.Left disk phase) (holds : t.Holds disk phase)
    (keeps : Keeps disk disk' t.details.partialPath) : t.Left disk' phase := by
  have front : t.Front disk → t.Front disk' := by
    intro front
    rwa [Front, keeps.read]
  cases phase with
  | receiving file queue buffered writer =>
      obtain ⟨-, -, passed, partial_, -⟩ := holds
      have left : transferBufferSize ∣ (disk.contents file).length := left
      have same : transferBufferSize ∣ (disk'.contents file).length := by
        rwa [keeps.contents file partial_.1]
      exact same
  | ending => exact keeps.read.trans left
  | failing signature error => exact front left
  | finished outcome =>
      cases outcome with
      | renamed => exact keeps.read.trans left
      | failed signature => exact front left
  | panicked => exact front left
  | _ => trivial

/-- What a task has written when one of its writes fails. -/
theorem written_of_failed {crates : Crates} {file queue : Nat} {buffered error : Bytes}
    {writer : Writer} (phase : task.phase = .receiving file queue buffered writer)
    (stepped : task.step crates shared action = some (shared', task'))
    (failed : task'.phase = .failing false error) :
    ∃ bytes, shared'.disk = shared.disk.append file bytes ∧ (bytes <+: buffered ∨
      ∃ job passed, action = .jobFail job passed error ∧
        bytes <+: WriterTask.buffer buffered writer (writer.handle task.details.size job)) := by
  cases action with
  | proceed =>
      simp only [WriterTask.step, WriterTask.proceed, phase] at stepped
      split at stepped
      next =>
        cases stepped
        cases failed
      next => cases stepped
  | fail passed error' =>
      simp only [WriterTask.step, WriterTask.fail, phase] at stepped
      split at stepped
      next =>
        cases stepped
        exact ⟨_, rfl, .inl (List.take_prefix _ _)⟩
      next => cases stepped
  | job job passed =>
      simp only [WriterTask.step, WriterTask.receive, phase] at stepped
      split at stepped
      next => cases stepped
      next =>
        split at stepped
        all_goals
          cases stepped
          cases failed
  | jobFail job passed error' =>
      simp only [WriterTask.step, WriterTask.receive, phase] at stepped
      split at stepped
      next => cases stepped
      next =>
        split at stepped
        next =>
          split at stepped
          next => cases stepped
          next =>
            cases stepped
            cases failed
            exact ⟨_, rfl, .inr ⟨job, passed, rfl,
              (List.take_prefix _ _).trans (List.take_prefix _ _)⟩⟩
        next =>
          cases stepped
          cases failed
          exact ⟨_, rfl, .inr ⟨job, passed, rfl, List.take_prefix _ _⟩⟩

theorem Runs.length_output {writer : Writer} (runs : t.Runs writer) :
    writer.output.length = writer.position.toNat - t.details.startIndex.toNat := by
  have within := runs.within
  rw [runs.output_eq, List.length_take, List.length_drop]
  omega

/-- Before a round the buffer has whole chunks, if the file has. -/
theorem Runs.dvd_buffered {writer : Writer} {passed buffered : Bytes} (runs : t.Runs writer)
    (running : writer.position ≠ t.details.size)
    (held : passed ++ buffered = t.leftover ++ writer.output)
    (chunks : transferBufferSize ∣ passed.length) : transferBufferSize ∣ buffered.length := by
  have within := runs.within
  have from_first := runs.from_first
  have below : writer.position.toNat < t.source.length := by
    have apart : writer.position.toNat ≠ t.details.size.toNat :=
      fun same => running (UInt64.toNat_inj.mp same)
    have whole := t.whole
    omega
  have aligned := Nat.dvd_add (runs.at_chunk below).2.2 t.begins
  rw [Nat.sub_add_cancel from_first] at aligned
  have lengths := congrArg List.length held
  rw [List.length_append, List.length_append, length_leftover, runs.length_output] at lengths
  have together : buffered.length = writer.position.toNat - passed.length := by
    omega
  rw [together]
  exact Nat.dvd_sub aligned chunks

/-- What the buffer has after a round is no less than what it passes on. -/
theorem passes_le {writer : Writer} (runs : t.Runs writer) {job : Receiver.Job}
    (feeds : t.Feeds job) (buffered : Bytes) :
    writer.passes t.details.size buffered.length job ≤
      (WriterTask.buffer buffered writer (writer.handle t.details.size job)).length := by
  obtain ⟨aligned, below, carries⟩ := feeds
  have after : t.Runs (writer.handle t.details.size job) :=
    runs.handle_any t.whole t.begins aligned below carries
  have position := Writer.position_handle (runs.within' t.whole) job
  have from_first := runs.from_first
  have bound := BufWriter.passedAll_le writeBufferSize buffered.length
    (writer.pieces t.details.size job)
  rw [WriterTask.buffer, List.length_append, List.length_drop, after.length_output,
    runs.length_output, Writer.passes]
  omega

/-- A part of what the task holds, or will hold after a round, keeps a front of the source. -/
theorem front_append {file queue : Nat} {buffered bytes : Bytes} {writer : Writer}
    (holds : t.Holds disk (.receiving file queue buffered writer))
    (held : bytes <+: buffered ∨ ∃ job, t.Feeds job ∧
      bytes <+: WriterTask.buffer buffered writer (writer.handle t.details.size job)) :
    t.Front (disk.append file bytes) := by
  obtain ⟨-, runs, before, ⟨named, rfl⟩, before⟩ := holds
  have named : (disk.append file bytes).entries t.details.partialPath = some (.file file) := named
  rw [Front, FileSystem.read_of_entries named, FileSystem.contents_append]
  show disk.contents file ++ bytes <+: t.source
  rcases held with held | ⟨job, fed, held⟩
  · refine .trans ?_ runs.front
    rw [← before]
    exact (List.prefix_append_right_inj _).mpr held
  · have after : t.Runs (writer.handle t.details.size job) :=
      runs.handle_any t.whole t.begins fed.1 fed.2.1 fed.2.2
    refine .trans ?_ after.front
    rw [← WriterTask.passed_received before t.details.size job 0, List.take_zero,
      List.append_nil, List.drop_zero]
    exact (List.prefix_append_right_inj _).mpr held

/-- A step of the task leaves whole chunks, or is late. -/
theorem left_step (stepped : task.step t.crates shared action = some (shared', task'))
    (mine : task.details = t.details) (holds : t.Holds shared.disk task.phase)
    (left : t.Left shared.disk task.phase) (fed : t.Fed action) (buffers : task.Buffers action) :
    t.Left shared'.disk task'.phase := by
  have move : task.Move t.crates shared action shared' task' := WriterTask.step_cases stepped
  cases move with
  | opened | seeked | flushed | verified | mismatched => trivial
  | popped phase =>
      cases signature : task.details.signature with
      | none => trivial
      | some signature => trivial
  | @subscribed file queue writer phase registered =>
      rw [phase] at holds
      obtain ⟨-, ⟨-, contents⟩, -⟩ := holds
      have length : transferBufferSize ∣ (shared.disk.contents file).length := by
        rw [contents, length_leftover]
        exact t.begins
      exact length
  | @received file queue buffered writer phase running job _ passed =>
      have same : passed = writer.passes task.details.size buffered.length job := by
        rw [WriterTask.Buffers, phase] at buffers
        exact buffers
      rw [phase] at holds left
      rw [mine] at same ⊢
      obtain ⟨-, runs, before, ⟨-, rfl⟩, held⟩ := holds
      have before : transferBufferSize ∣ (shared.disk.contents file).length := left
      have units := runs.dvd_passes t.whole fed.2.1 fed.2.2
        (runs.dvd_buffered (mine ▸ running) held before)
      have length : transferBufferSize ∣ ((shared.disk.append file
          ((WriterTask.buffer buffered writer (writer.handle t.details.size job)).take
            passed)).contents file).length := by
        rw [FileSystem.contents_append, List.length_append, List.length_take, same,
          Nat.min_eq_left (passes_le runs fed buffered)]
        exact Nat.dvd_add before units
      exact length
  | notified phase | removed phase | unremoved phase =>
      rw [phase] at holds
      exact absurd holds id
  | @moved disk phase renamed =>
      rw [mine] at renamed
      have nothing : disk.read t.details.partialPath = none := by
        rw [FileSystem.read, FileSystem.entries_rename_source renamed t.apart]
      exact nothing
  | ended phase =>
      rw [phase] at left
      exact left
  | reported phase =>
      rw [phase] at left
      exact left
  | keyPanicked | seekPanicked | sendPanicked => exact holds.front left
  | @keystreamPanicked file queue buffered writer phase running job _ passed kept =>
      rw [phase] at holds
      exact front_append holds (.inr ⟨job, fed, mine ▸ List.take_prefix _ _⟩)
  | @writeFailed _ file queue buffered writer phase bytes error =>
      obtain ⟨bytes, same, held⟩ := written_of_failed phase stepped rfl
      rw [phase] at holds
      have written : t.Front (shared.disk.append file bytes) := by
        rcases held with held | ⟨job, passed, rfl, held⟩
        · exact front_append holds (.inl held)
        · exact front_append holds (.inr ⟨job, fed, mine ▸ held⟩)
      have goal : t.Front (shared.setDisk _).disk := same ▸ written
      exact goal
  | failed => exact holds.front left

end Target

end Cccp
