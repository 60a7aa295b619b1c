import Cccp.Control.Model
import Cccp.Resume

/-!
# The arithmetic of resuming

The index a file is resumed from comes from the length of a partial file, the size
from the manifest.  Both sides subtract the index from the size, and the writer
subtracts its position, in arithmetic that wraps.

`resumeFits_iff` says when nothing wraps: when the partial file has no more whole
chunks than the source.
-/

namespace Cccp

/-- `a - b` does not wrap. -/
def SubFits (a b : UInt64) : Prop :=
  (a - b).toNat + b.toNat = a.toNat

theorem subFits_iff {a b : UInt64} : SubFits a b ↔ b ≤ a := by
  have bound := a.toNat_lt
  have bound' := b.toNat_lt
  rw [SubFits, UInt64.toNat_sub, UInt64.le_iff_toNat_le]
  omega

namespace Writer

/-- The states in which `drain` calls `write_data`. -/
def drainWrites (size : UInt64) : Nat → Writer → List Writer
  | 0, _ => []
  | fuel + 1, w =>
      match w.cache.lookup w.position with
      | none => []
      | some job =>
          w :: drainWrites size fuel
            (writeData { w with cache := w.cache.erase w.position } job.data size)

/-- The states in which a round of the loop calls `write_data`. -/
def handleWrites (size : UInt64) (w : Writer) (job : Receiver.Job) : List Writer :=
  if job.index < w.position ∨ w.position < job.index then []
  else
    let written := (w.writeData job.data size).confirm job.index
    w :: drainWrites size written.cache.entries.length written

/-- The states in which the loop calls `write_data`. -/
def runWrites (size : UInt64) : Writer → List Receiver.Job → List Writer
  | _, [] => []
  | w, job :: rest =>
      if w.position = size then []
      else handleWrites size w job ++ runWrites size (w.handle size job) rest

variable {size : UInt64} {w : Writer}

theorem within_drainWrites {fuel : Nat} (within : w.Within size) :
    ∀ v ∈ drainWrites size fuel w, v.Within size := by
  induction fuel generalizing w with
  | zero => nofun
  | succ fuel ih =>
      unfold drainWrites
      split
      next => nofun
      next job _ =>
        intro v mem
        have within' : Within size { w with cache := w.cache.erase w.position } := within
        rcases List.mem_cons.mp mem with rfl | mem
        · exact within
        · exact ih (within'.writeData job.data) v mem

theorem within_handleWrites (within : w.Within size) (job : Receiver.Job) :
    ∀ v ∈ handleWrites size w job, v.Within size := by
  unfold handleWrites
  split
  next => nofun
  next =>
    intro v mem
    have written : ((w.writeData job.data size).confirm job.index).Within size :=
      within.writeData job.data
    rcases List.mem_cons.mp mem with rfl | mem
    · exact within
    · exact within_drainWrites written v mem

/-- A writer that starts within its file stays there, whatever it is delivered. -/
theorem Within.run (within : w.Within size) (delivered : List Receiver.Job) :
    (w.run size delivered).Within size ∧ ∀ v ∈ w.runWrites size delivered, v.Within size := by
  induction delivered generalizing w with
  | nil => exact ⟨within, fun v none_ => absurd none_ List.not_mem_nil⟩
  | cons job rest ih =>
      rw [Writer.run, runWrites]
      split
      next => exact ⟨within, fun v none_ => absurd none_ List.not_mem_nil⟩
      next =>
        obtain ⟨later, writes⟩ := ih (within.handle job)
        refine ⟨later, fun v mem => ?_⟩
        rcases List.mem_append.mp mem with mem | mem
        · exact within_handleWrites within job v mem
        · exact writes v mem

/-- Whatever its size, a writer that starts within its file can complete it. -/
theorem exists_run_complete {startIndex : UInt64} (within : startIndex ≤ size)
    (keystream : Keystream) (ends : Option Nat) :
    ∃ delivered, ((start startIndex ⟨keystream, 0, ends⟩).run size delivered).position = size := by
  let file : Bytes := List.replicate size.toNat 0
  have whole : size.toNat = file.length := List.length_replicate.symm
  have fits : file.length < 2 ^ 64 := whole ▸ size.toNat_lt
  have inside : startIndex.toNat ≤ file.length := whole ▸ UInt64.le_iff_toNat_le.mp within
  have delivers : ∀ sent ∈ readerJobs file startIndex 0 ⟨keystream, 0, ends⟩,
      Delivers sent (Receiver.decodeFrame sent.data).2 :=
    fun sent mem => delivers_decodeFrame fits inside mem
  let delivered := (readerJobs file startIndex 0 ⟨keystream, 0, ends⟩).map fun sent =>
    (Receiver.decodeFrame sent.data).2
  have drawn : ∀ job ∈ delivered,
      ∃ sent ∈ readerJobs file startIndex 0 ⟨keystream, 0, ends⟩, Delivers sent job := by
    intro job mem
    obtain ⟨sent, sent_mem, rfl⟩ := List.mem_map.mp mem
    exact ⟨sent, sent_mem, delivers sent sent_mem⟩
  obtain ⟨-, complete⟩ := run_start whole inside drawn
  refine ⟨delivered, complete fun sent mem => ?_⟩
  exact ⟨_, List.mem_map.mpr ⟨sent, mem, rfl⟩, delivers sent mem⟩

end Writer

/-- Nothing that is computed from the start index of a file wraps. -/
structure ResumeFits (details : FileDetails) : Prop where
  start : details.startIndex ≤ details.size
  /-- what `receiver::main` adds to its total -/
  added : SubFits details.size details.startIndex
  /-- `start_file_transfer` subtracts the index from a total that has the size in it -/
  started : ∀ total, details.size ≤ total → SubFits total details.startIndex
  /-- the writer's loop, whatever jobs it has received -/
  position : ∀ cipher delivered,
    ((Writer.start details.startIndex cipher).run details.size delivered).position ≤ details.size
  /-- every call of `write_data` -/
  writes : ∀ cipher delivered,
    ∀ w ∈ (Writer.start details.startIndex cipher).runWrites details.size delivered,
      SubFits details.size w.position
  /-- the loop can end -/
  exits : ∀ keystream ends, ∃ delivered,
    ((Writer.start details.startIndex ⟨keystream, 0, ends⟩).run details.size delivered).position =
      details.size

theorem resumeFits_of_le {details : FileDetails} (start : details.startIndex ≤ details.size) :
    ResumeFits details where
  start := start
  added := subFits_iff.mpr start
  started := fun _ counted => subFits_iff.mpr (UInt64.le_trans start counted)
  position := fun cipher delivered => by
    have within : (Writer.start details.startIndex cipher).Within details.size :=
      UInt64.le_iff_toNat_le.mp start
    exact UInt64.le_iff_toNat_le.mpr (within.run delivered).1
  writes := fun cipher delivered w mem => by
    have within : (Writer.start details.startIndex cipher).Within details.size :=
      UInt64.le_iff_toNat_le.mp start
    exact subFits_iff.mpr (UInt64.le_iff_toNat_le.mpr ((within.run delivered).2 w mem))
  exits := Writer.exists_run_complete start

/-- Rounding down to whole chunks stays below a size with as many whole chunks. -/
theorem startIndex_le_iff {metadata : Metadata} {size : UInt64} :
    startIndex (some metadata) ≤ size ↔
      metadata.len.toNat / transferBufferSize ≤ size.toNat / transferBufferSize := by
  rw [UInt64.le_iff_toNat_le, toNat_startIndex, transferBufferSize]
  omega

/-- **Resuming does not wrap** anywhere, in the first attempt or in a later one, exactly
when the partial file the receiver found has no more whole chunks than the source. -/
theorem resumeFits_iff {options : ReceiverOptions} {disk : DiskView} {manifest : Manifest}
    {file : UInt32 × FileDetail × Path} {details : FileDetails}
    (made : fileDetails options disk manifest file = some details) :
    (∀ later, ResumeFits (Control.restarted later details)) ↔
      ∀ metadata, disk details.partialPath = some metadata →
        metadata.len.toNat / transferBufferSize ≤ details.size.toNat / transferBufferSize := by
  obtain ⟨partialPath, -, rfl⟩ := Option.map_eq_some_iff.mp made
  constructor
  · intro fits metadata found
    -- the partial file is there when the transfer starts
    have kept := (fits ⟨fun _ => some .dir, fun _ => [], 0⟩).start
    rw [Control.restarted, if_neg (by simp [FileSystem.exists_])] at kept
    have found : disk partialPath = some metadata := found
    rw [found] at kept
    exact startIndex_le_iff.mp kept
  · intro chunks later
    apply resumeFits_of_le
    unfold Control.restarted
    split
    next => exact UInt64.zero_le
    next =>
      show startIndex (disk partialPath) ≤ file.2.1.size
      cases found : disk partialPath with
      | none => exact UInt64.zero_le
      | some metadata => exact startIndex_le_iff.mpr (chunks metadata found)

/-- A file of so many bytes that was 1024 bytes when it was received before. -/
def resizedDetail (size : UInt64) : FileDetail := ⟨[97], size, none, ⟨0, [], []⟩⟩

def resizedManifest (size : UInt64) : Manifest := ⟨[], AList.singleton 0 (resizedDetail size)⟩

def toFile : ReceiverOptions := ⟨[.normal [97]], false, false, false⟩

def shrunkDisk : DiskView := fun path =>
  if path = [.normal ([97] ++ partialSuffix)] then some ⟨false, 1024⟩ else none

/-- With one byte, its start index is behind its end, and `details.size - start_index`
wraps. -/
theorem shrunk_wraps : ∃ details,
    fileDetails toFile shrunkDisk (resizedManifest 1) (0, resizedDetail 1, [.normal [97]]) =
      some details ∧
    details.size < details.startIndex ∧ ¬ SubFits details.size details.startIndex := by
  refine ⟨⟨0, [.normal [97]], [.normal ([97] ++ partialSuffix)], 1, 1024, none, ⟨0, [], []⟩⟩,
    by decide, by decide, ?_⟩
  rw [subFits_iff]
  decide

/-- A file that has grown resumes without wrapping. -/
theorem resumeFits_iff_grown : ∃ details,
    fileDetails toFile shrunkDisk (resizedManifest 2000) (0, resizedDetail 2000, [.normal [97]]) =
        some details ∧ ∀ later, ResumeFits (Control.restarted later details) := by
  refine ⟨⟨0, [.normal [97]], [.normal ([97] ++ partialSuffix)], 2000, 1024, none, ⟨0, [], []⟩⟩,
    by decide, ?_⟩
  refine (@resumeFits_iff toFile shrunkDisk (resizedManifest 2000)
    (0, resizedDetail 2000, [.normal [97]]) _ (by decide)).mpr ?_
  intro metadata found
  have found : some (⟨false, 1024⟩ : Metadata) = some metadata := found
  cases found
  decide

end Cccp
