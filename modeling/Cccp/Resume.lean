import Cccp.Lib.Machine
import Cccp.Reassembly
import Cccp.Receiver.Task

/-!
# Resuming a partial file

A receiver that finds a partial file rounds its length down to whole chunks and has
the file sent from there.  The writer seeks to that index but opens the file for
appending, so that its output lands behind everything the partial file holds.

`resumesRight_iff` says for which leftovers the renamed file is the source: those
of whole chunks, and those that a signature or the end of the keystream stops before the
rename.
-/

namespace Cccp

/-- A receiver about to write a file of which a front is left over on its disk. -/
structure Resumption where
  crates : Crates
  /-- the lengths of directories -/
  dirLen : Path → UInt64
  shared : Shared
  details : FileDetails
  /-- the source, and how many bytes of it are left over -/
  file : Bytes
  leftover : Nat
  keystream : Keystream
  /-- how long the keystream is, if it ends -/
  ends : Option Nat
  inode : Nat
  queue : Nat
  within : leftover ≤ file.length
  whole : details.size.toNat = file.length
  named : shared.disk.entries details.partialPath = some (.file inode)
  contents : shared.disk.contents inode = file.take leftover
  resumed : details.startIndex = startIndex (diskView dirLen shared.disk details.partialPath)
  made : details.crypto.makeCipher crates.cipher = .made ⟨keystream, 0, ends⟩
  queued : shared.queues details.id = some queue

namespace Resumption

variable (r : Resumption)

/-- The writer task as the controller spawns it. -/
def spawned : Shared × WriterTask :=
  (r.shared, ⟨r.details, .opening⟩)

def machine : Machine (Shared × WriterTask) TaskAction where
  init s := s = r.spawned
  step s action := s.2.step r.crates s.1 action

/-- A job the sender's reader produced for the index it was told. -/
def Drawn (job : Receiver.Job) : Prop :=
  ∃ sent ∈ readerJobs r.file r.details.startIndex r.details.id ⟨r.keystream, 0, r.ends⟩,
    Delivers sent job

/-- Only the reader's jobs are delivered. -/
def Fed (_ : Shared × WriterTask) : TaskAction → Prop
  | .job job _ | .jobFail job _ _ => r.Drawn job
  | .proceed | .fail _ _ => True

/-- Whenever the task reaches the rename, the partial file is the source. -/
def ResumesRight : Prop :=
  ∀ s, r.machine.ReachableVia r.Fed s → s.2.phase = .moving →
    s.1.disk.read r.details.partialPath = some r.file

/-! ## What the task writes -/

/-- What the partial file holds once everything is written. -/
def result : Bytes :=
  r.file.take r.leftover ++ r.file.drop r.details.startIndex.toNat

theorem fits : r.file.length < 2 ^ 64 := r.whole ▸ r.details.size.toNat_lt

theorem toNat_startIndex :
    r.details.startIndex.toNat = r.leftover / transferBufferSize * transferBufferSize := by
  have fits := r.fits
  have within := r.within
  rw [r.resumed, diskView, r.named, Option.map_some, Cccp.toNat_startIndex]
  simp only [r.contents, List.length_take, Nat.min_eq_left within, UInt64.toNat_ofNat']
  rw [Nat.mod_eq_of_lt (by omega)]

theorem startIndex_le : r.details.startIndex.toNat ≤ r.file.length := by
  rw [r.toNat_startIndex]
  exact (Nat.div_mul_le_self _ _).trans r.within

/-- The keystream reaches to the end of the source. -/
def Lasts : Prop :=
  ∀ n, r.ends = some n → r.file.length ≤ n

/-- Then the start index lies within it. -/
theorem seeks (lasts : r.Lasts) :
    StreamCipher.past ⟨r.keystream, 0, r.ends⟩ r.details.startIndex.toNat = false :=
  StreamCipher.past_eq_false_iff.mpr fun n ends => r.startIndex_le.trans (lasts n ends)

theorem covered (lasts : r.Lasts) :
    (Writer.start r.details.startIndex ⟨r.keystream, 0, r.ends⟩).Covered r.details.size :=
  Writer.covered_start fun n ends =>
    ⟨UInt64.le_iff_toNat_le.mpr (r.whole ▸ r.startIndex_le), r.whole ▸ lasts n ends⟩

/-- The result is the source exactly when nothing is written twice. -/
theorem result_eq_iff : r.result = r.file ↔ transferBufferSize ∣ r.leftover := by
  have within := r.within
  have start := r.toNat_startIndex
  constructor
  · intro same
    have count := congrArg List.length same
    simp only [result, List.length_append, List.length_take, List.length_drop] at count
    rw [Nat.min_eq_left within] at count
    have below := Nat.div_mul_le_self r.leftover transferBufferSize
    exact ⟨r.leftover / transferBufferSize, by rw [Nat.mul_comm]; omega⟩
  · intro chunks
    rw [result, start, Nat.div_mul_cancel chunks, List.take_append_drop]

/-! ## The invariant of the task -/

def OnDisk (shared : Shared) (bytes : Bytes) : Prop :=
  shared.disk.entries r.details.partialPath = some (.file r.inode) ∧
    shared.disk.contents r.inode = bytes

/-- What is on the disk at each operation of the task, up to the rename. -/
def Inv (s : Shared × WriterTask) : Prop :=
  s.2.details = r.details ∧
    match s.2.phase with
    | .opening => r.OnDisk s.1 (r.file.take r.leftover)
    | .seeking file => file = r.inode ∧ r.OnDisk s.1 (r.file.take r.leftover)
    | .subscribing file writer => file = r.inode ∧ r.OnDisk s.1 (r.file.take r.leftover) ∧
        writer = Writer.start r.details.startIndex ⟨r.keystream, 0, r.ends⟩ ∧
        writer.ranOut = false
    | .receiving file _ buffered writer => file = r.inode ∧
        writer.Running r.file r.keystream r.details.startIndex.toNat ∧
        writer.cipher.ends = r.ends ∧ writer.ranOut = false ∧
        ∃ passed, r.OnDisk s.1 passed ∧
          passed ++ buffered = r.file.take r.leftover ++ writer.output
    | .popping => r.OnDisk s.1 r.result ∧ r.Lasts
    | .hashing signature => r.OnDisk s.1 r.result ∧ r.Lasts ∧
        r.details.signature = some signature
    | .moving => r.OnDisk s.1 r.result ∧ r.Lasts ∧
        ∀ signature, r.details.signature = some signature → r.crates.hash r.result = signature
    | _ => True

/-- A round of the loop leaves disk and buffer with what was there and the output. -/
theorem onDisk_receive {shared : Shared} {passed buffered : Bytes} {writer : Writer}
    {job : Receiver.Job} (onDisk : r.OnDisk shared passed)
    (held : passed ++ buffered = r.file.take r.leftover ++ writer.output) (count : Nat) :
    ∃ passed', r.OnDisk
        (shared.setDisk (shared.disk.append r.inode
          ((WriterTask.buffer buffered writer (writer.handle r.details.size job)).take count)))
        passed' ∧
      passed' ++ (WriterTask.buffer buffered writer (writer.handle r.details.size job)).drop
        count = r.file.take r.leftover ++ (writer.handle r.details.size job).output := by
  refine ⟨_, ⟨onDisk.1, ?_⟩, WriterTask.passed_received held r.details.size job count⟩
  show (shared.disk.append _ _).contents _ = _
  rw [FileSystem.contents_append, onDisk.2]

theorem inv_step {s s' : Shared × WriterTask} {action : TaskAction} (inv : r.Inv s)
    (fed : r.Fed s action) (next : r.machine.step s action = some s') : r.Inv s' := by
  obtain ⟨shared, details, phase⟩ := s
  obtain ⟨shared', task'⟩ := s'
  obtain ⟨rfl, inv⟩ := inv
  have move : WriterTask.Move r.crates shared ⟨r.details, phase⟩ action shared' task' :=
    WriterTask.step_cases next
  cases move with
  | @opened file disk here opened =>
      cases here
      rw [FileSystem.openAppend_old inv.1] at opened
      cases opened
      exact ⟨rfl, rfl, inv⟩
  | @seeked file cipher here made lasts =>
      cases here
      obtain ⟨rfl, onDisk⟩ := inv
      rw [r.made] at made
      cases made
      exact ⟨rfl, rfl, onDisk, rfl, lasts⟩
  | @subscribed file queue writer here _ =>
      cases here
      obtain ⟨rfl, onDisk, rfl, lasts⟩ := inv
      refine ⟨rfl, rfl, ?_, rfl, lasts, _, onDisk, rfl⟩
      exact ⟨Writer.sound_start ⟨r.keystream, 0, r.ends⟩ r.startIndex_le, AList.notMem_empty _⟩
  | @received file queue buffered writer here _ job lasts passed =>
      cases here
      obtain ⟨rfl, running, ends, -, on, onDisk, held⟩ := inv
      obtain ⟨sent, mem, delivers⟩ := fed
      obtain ⟨-, chunk, carries⟩ := delivers.carries r.fits r.startIndex_le mem
      exact ⟨rfl, rfl, (running.handle r.whole chunk carries).1,
        (Writer.ends_handle job).trans ends, lasts, r.onDisk_receive onDisk held passed⟩
  | @flushed file queue buffered writer here complete =>
      cases here
      obtain ⟨rfl, running, ends, lasts, passed, onDisk, held⟩ := inv
      refine ⟨rfl, ⟨onDisk.1, ?_⟩, fun n stops => ?_⟩
      · show (shared.disk.append _ _).contents _ = _
        rw [FileSystem.contents_append, onDisk.2, held, result,
          running.output_complete r.whole complete]
      · -- the cipher stands at the end of the source
        have reach := StreamCipher.past_eq_false_iff.mp lasts n (ends.trans stops)
        rwa [running.offset_eq, complete, r.whole] at reach
  | popped here =>
      cases here
      refine ⟨rfl, ?_⟩
      cases signature : r.details.signature with
      | none =>
          simp only [WriterTask.goto]
          exact ⟨inv.1, inv.2, fun _ given => by cases given⟩
      | some value =>
          simp only [WriterTask.goto]
          exact ⟨inv.1, inv.2, trivial⟩
  | @verified signature contents here read same =>
      cases here
      obtain ⟨⟨named, result_eq⟩, lasts, given⟩ := inv
      rw [FileSystem.read_of_entries named, result_eq] at read
      cases read
      exact ⟨rfl, ⟨named, result_eq⟩, lasts,
        fun _ given' => same.trans (Option.some.inj (given.symm.trans given'))⟩
  | mismatched | notified | removed | unremoved | moved | ended | reported | keyPanicked
  | seekPanicked | keystreamPanicked | sendPanicked | writeFailed | failed =>
      exact ⟨rfl, trivial⟩

theorem inv_reached {s : Shared × WriterTask} (reached : r.machine.ReachableVia r.Fed s) :
    r.Inv s :=
  reached.invariant (fun _ start => start ▸ ⟨rfl, r.named, r.contents⟩)
    fun _ _ _ _ inv fed next => r.inv_step inv fed next

/-! ## A run to the rename -/

/-- Jobs delivered one by one take the writer through its loop. -/
theorem reached_run {delivered : List Receiver.Job} (drawn : ∀ job ∈ delivered, r.Drawn job)
    {shared : Shared} {file queue : Nat} {buffered : Bytes} {writer : Writer}
    (covered : writer.Covered r.details.size)
    (reached : r.machine.ReachableVia r.Fed
      (shared, ⟨r.details, .receiving file queue buffered writer⟩)) :
    ∃ shared' buffered', r.machine.ReachableVia r.Fed
      (shared', ⟨r.details,
        .receiving file queue buffered' (writer.run r.details.size delivered)⟩) := by
  induction delivered generalizing shared buffered writer with
  | nil => exact ⟨shared, buffered, reached⟩
  | cons job rest ih =>
      rw [Writer.run]
      by_cases complete : writer.position = r.details.size
      · rw [if_pos complete]
        exact ⟨shared, buffered, reached⟩
      · rw [if_neg complete]
        have covered' := covered.handle job
        exact ih (fun other mem => drawn other (List.mem_cons_of_mem _ mem)) covered'
          (.step reached (a := .job job 0) (drawn job List.mem_cons_self)
            (WriterTask.receive_receiving complete covered'.ranOut_eq_false 0))

/-- Unless its keystream ends before or a signature stands against its result, the task comes
to the rename. -/
theorem reaches_moving (lasts : r.Lasts) (passes : ∀ signature, r.details.signature = some signature →
    r.crates.hash r.result = signature) :
    ∃ s, r.machine.ReachableVia r.Fed s ∧ s.2.phase = .moving := by
  let delivered := (readerJobs r.file r.details.startIndex r.details.id
    ⟨r.keystream, 0, r.ends⟩).map fun sent => (Receiver.decodeFrame sent.data).2
  have drawn : ∀ job ∈ delivered, r.Drawn job := by
    intro job mem
    obtain ⟨sent, sent_mem, rfl⟩ := List.mem_map.mp mem
    exact ⟨sent, sent_mem, delivers_decodeFrame r.fits r.startIndex_le sent_mem⟩
  obtain ⟨running, complete⟩ := Writer.run_start r.whole r.startIndex_le drawn
  have exited := complete fun sent mem =>
    ⟨_, List.mem_map.mpr ⟨sent, mem, rfl⟩,
      delivers_decodeFrame r.fits r.startIndex_le mem⟩
  have seeking : r.machine.ReachableVia r.Fed
      (r.shared, ⟨r.details, .seeking r.inode⟩) := by
    refine .step (.init rfl) (a := .proceed) trivial ?_
    simp only [machine, spawned, WriterTask.step, WriterTask.proceed,
      FileSystem.openAppend_old r.named]
    rfl
  have subscribing : r.machine.ReachableVia r.Fed (r.shared, ⟨r.details,
      .subscribing r.inode (Writer.start r.details.startIndex ⟨r.keystream, 0, r.ends⟩)⟩) := by
    refine .step seeking (a := .proceed) trivial ?_
    simp only [machine, WriterTask.step, WriterTask.proceed, r.made, r.seeks lasts, Bool.false_eq_true,
      if_false]
    rfl
  have receiving : r.machine.ReachableVia r.Fed (r.shared, ⟨r.details, .receiving r.inode
      r.queue [] (Writer.start r.details.startIndex ⟨r.keystream, 0, r.ends⟩)⟩) := by
    refine .step subscribing (a := .proceed) trivial ?_
    simp only [machine, WriterTask.step, WriterTask.proceed, WriterTask.id, r.queued]
    rfl
  obtain ⟨shared, buffered, received⟩ := r.reached_run drawn (r.covered lasts) receiving
  have popping : r.machine.ReachableVia r.Fed
      (shared.setDisk (shared.disk.append r.inode buffered), ⟨r.details, .popping⟩) := by
    refine .step received (a := .proceed) trivial ?_
    simp only [machine, WriterTask.step, WriterTask.proceed, if_pos exited]
    rfl
  cases signature : r.details.signature with
  | none =>
      refine ⟨((shared.setDisk (shared.disk.append r.inode buffered)).popQueue r.details.id,
        ⟨r.details, .moving⟩), .step popping (a := .proceed) trivial ?_, rfl⟩
      simp only [machine, WriterTask.step, WriterTask.proceed, signature]
      rfl
  | some value =>
      obtain ⟨shared', hashing⟩ : ∃ shared', r.machine.ReachableVia r.Fed
          (shared', ⟨r.details, .hashing value⟩) := by
        refine ⟨(shared.setDisk (shared.disk.append r.inode buffered)).popQueue r.details.id,
          .step popping (a := .proceed) trivial ?_⟩
        simp only [machine, WriterTask.step, WriterTask.proceed, signature]
        rfl
      obtain ⟨-, onDisk, -, -⟩ := r.inv_reached hashing
      have contents : shared'.disk.contents r.inode = r.result := onDisk.2
      refine ⟨(shared', ⟨r.details, .moving⟩), .step hashing (a := .proceed) trivial ?_, rfl⟩
      simp only [machine, WriterTask.step, WriterTask.proceed,
        FileSystem.read_of_entries onDisk.1, contents, Option.map_some,
        if_pos (passes value signature)]
      rfl

/-! ## When resuming is right -/

/-- A task at the rename has the result of its attempt in the partial file, and had keystream
for all of it. -/
theorem read_moving {s : Shared × WriterTask} (reached : r.machine.ReachableVia r.Fed s)
    (moving : s.2.phase = .moving) :
    s.1.disk.read r.details.partialPath = some r.result ∧ r.Lasts ∧
      ∀ signature, r.details.signature = some signature →
        r.crates.hash r.result = signature := by
  obtain ⟨shared, details, phase⟩ := s
  obtain ⟨-, inv⟩ := r.inv_reached reached
  cases moving
  obtain ⟨⟨named, contents⟩, lasts, passes⟩ := inv
  exact ⟨contents ▸ FileSystem.read_of_entries named, lasts, passes⟩

/-- A leftover that is cut inside a chunk spoils the file, unless the keystream ends before or
a signature stands against it. -/
theorem not_resumesRight (cut : ¬ transferBufferSize ∣ r.leftover) (lasts : r.Lasts)
    (passes : ∀ signature, r.details.signature = some signature →
      r.crates.hash r.result = signature) : ¬ r.ResumesRight := by
  intro right
  obtain ⟨s, reached, moving⟩ := r.reaches_moving lasts passes
  have read := right s reached moving
  rw [(r.read_moving reached moving).1] at read
  exact cut (r.result_eq_iff.mp (Option.some.inj read))

end Resumption

/-- **Resuming.**  Whenever the writer task of a resumed attempt comes to the rename its
partial file is the source, if and only if what was left over was whole chunks, or the
manifest has a signature that the result of the attempt does not have, or the keystream ends
before the source; with these two the task does not come there. -/
theorem resumesRight_iff (r : Resumption) :
    r.ResumesRight ↔ transferBufferSize ∣ r.leftover ∨
      (∃ signature, r.details.signature = some signature ∧
        r.crates.hash (r.file.take r.leftover ++ r.file.drop r.details.startIndex.toNat) ≠
          signature) ∨
      ∃ n, r.ends = some n ∧ n < r.file.length := by
  constructor
  · intro right
    by_contra neither
    rw [not_or, not_or] at neither
    obtain ⟨cut, signed, short⟩ := neither
    have lasts : r.Lasts := fun n ends => Nat.not_lt.mp fun less => short ⟨n, ends, less⟩
    refine r.not_resumesRight cut lasts (fun signature given => ?_) right
    by_contra differs
    exact signed ⟨signature, given, differs⟩
  · rintro (chunks | ⟨signature, given, differs⟩ | ⟨n, ends, short⟩) s reached moving
    · rw [(r.read_moving reached moving).1, r.result_eq_iff.mpr chunks]
    · exact absurd ((r.read_moving reached moving).2.2 signature given) differs
    · exact absurd ((r.read_moving reached moving).2.1 n ends) (Nat.not_le.mpr short)

/-- A receiver that stopped after the first chunk of an unsigned file. -/
def Resumption.oneChunk : Resumption where
  crates := ⟨⟨fun _ _ _ _ => 0, fun _ => none⟩, fun bytes => bytes⟩
  dirLen := fun _ => 0
  shared :=
    { disk := ⟨fun path => if path = [.normal [98]] then some (.file 0) else none,
        fun _ => List.replicate 1024 7, 1⟩
      queues := fun _ => some 0
      nextQueue := 1
      messages := []
      closed := false }
  details :=
    { id := 0
      path := [.normal [97]]
      partialPath := [.normal [98]]
      size := 1500
      startIndex := 1024
      signature := none
      crypto := ⟨0, [], []⟩ }
  file := List.replicate 1500 7
  leftover := 1024
  keystream := fun _ => 0
  ends := none
  inode := 0
  queue := 0
  within := by
    rw [List.length_replicate]
    decide
  whole := by
    rw [List.length_replicate]
    rfl
  named := rfl
  contents := by
    rw [List.take_replicate]
    rfl
  resumed := by
    show (1024 : UInt64) = startIndex (some ⟨false, UInt64.ofNat (List.replicate 1024 7).length⟩)
    rw [List.length_replicate]
    rfl
  made := rfl
  queued := rfl

/-- It goes on behind it. -/
theorem oneChunk_resumed : Resumption.oneChunk.ResumesRight :=
  (resumesRight_iff _).mpr (.inl ⟨1, rfl⟩)

/-- A receiver that died between the last write of a one-byte file and its rename. -/
def Resumption.unrenamed : Resumption where
  crates := ⟨⟨fun _ _ _ _ => 0, fun _ => none⟩, fun bytes => bytes⟩
  dirLen := fun _ => 0
  shared :=
    { disk := ⟨fun path => if path = [.normal [98]] then some (.file 0) else none,
        fun _ => [1], 1⟩
      queues := fun _ => some 0
      nextQueue := 1
      messages := []
      closed := false }
  details :=
    { id := 0
      path := [.normal [97]]
      partialPath := [.normal [98]]
      size := 1
      startIndex := 0
      signature := none
      crypto := ⟨0, [], []⟩ }
  file := [1]
  leftover := 1
  keystream := fun _ => 0
  ends := none
  inode := 0
  queue := 0
  within := by decide
  whole := by decide
  named := rfl
  contents := rfl
  resumed := by decide
  made := rfl
  queued := rfl

/-- Its byte is requested, written and renamed a second time. -/
theorem unrenamed_spoiled :
    Resumption.unrenamed.details.signature = none ∧
      Resumption.unrenamed.result = [1, 1] ∧ ¬ Resumption.unrenamed.ResumesRight :=
  ⟨rfl, by decide, Resumption.unrenamed.not_resumesRight (by decide)
    (fun n ends => by cases ends) fun signature given => by cases given⟩

end Cccp
