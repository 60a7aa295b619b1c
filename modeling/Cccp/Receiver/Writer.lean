import Cccp.Basic
import Cccp.Lib.Keystream
import Cccp.Lib.Reorder

/-!
# Writing jobs in order

`receiver::receiver` decodes a datagram into a job, and the loop of
`receiver::writer` puts the jobs of one file back in order: it writes the chunk at
its position, keeps the chunks ahead of it, and drops those behind it.

`Writer.keys` forgets the data; on positions the loop is the reordering consumer of
`Cccp.Lib.Reorder` (`Writer.keys_handle`).
-/

namespace Cccp

namespace Receiver

/-- A job of the receiver: a file chunk and its index. -/
structure Job where
  data : Bytes
  index : UInt64
  deriving DecidableEq

/-- `socket.recv(&mut buf)`: what does not fit the buffer is cut off. -/
def recv (buf datagram : Bytes) : Bytes :=
  Bytes.splice buf 0 (datagram.take buf.length)

/-- Slice the buffer into the id, index, and data. -/
def decodeFrame (buf : Bytes) : UInt32 × Job :=
  (UInt32.ofNat (Bytes.fromBE (buf.take idSize)),
    { data := buf.drop (indexSize + idSize)
      index := UInt64.ofNat (Bytes.fromBE ((buf.drop idSize).take indexSize)) })

end Receiver

/-- The variables of `writer`'s loop, with what it has handed to its output and to the
confirmation channel. -/
structure Writer where
  position : UInt64
  cipher : StreamCipher
  cache : HashMap UInt64 Receiver.Job
  output : Bytes
  confirmed : List UInt64

namespace Writer

def start (startIndex : UInt64) (cipher : StreamCipher) : Writer where
  position := startIndex
  cipher := cipher.seek startIndex.toNat
  cache := ∅
  output := []
  confirmed := []

/-- `write_data`: write data and advance position. -/
def writeData (w : Writer) (buffer : Bytes) (fileSize : UInt64) : Writer :=
  let len := min (fileSize - w.position) (UInt64.ofNat transferBufferSize)
  let written := w.cipher.applyKeystream (buffer.take len.toNat)
  { w with
    cipher := written.2
    position := w.position + len
    output := w.output ++ written.1 }

def confirm (w : Writer) (index : UInt64) : Writer :=
  { w with confirmed := w.confirmed ++ [index] }

/-- Write all consecutive chunks from the cache.  Every round removes one chunk from the
cache, so its size bounds the rounds. -/
def drain (size : UInt64) : Nat → Writer → Writer
  | 0, w => w
  | fuel + 1, w =>
      match w.cache.lookup w.position with
      | none => w
      | some job =>
          drain size fuel
            (writeData { w with cache := w.cache.erase w.position } job.data size)

/-- One round of the loop, with the job it received. -/
def handle (size : UInt64) (w : Writer) (job : Receiver.Job) : Writer :=
  -- a chunk behind the current position was already written
  if job.index < w.position then w
  -- a chunk ahead of it is saved for later
  else if w.position < job.index then
    { w.confirm job.index with cache := w.cache.insert job.index job }
  else
    let written := (w.writeData job.data size).confirm job.index
    drain size written.cache.entries.length written

/-- A call has gone past the end of the keystream, where the crates panic.  The last call
reaches furthest. -/
def ranOut (w : Writer) : Bool := w.cipher.past w.cipher.offset

/-- How much is written before a call goes past the end of the keystream.  The call for the
last chunk of the file is the last one, so that these are full chunks. -/
def lasting (w : Writer) : Nat :=
  match w.cipher.ends with
  | some n => (n - w.cipher.offset) / transferBufferSize * transferBufferSize
  | none => 0

/-- The loop over a sequence of delivered jobs; it takes none once the file is complete. -/
def run (size : UInt64) : Writer → List Receiver.Job → Writer
  | w, [] => w
  | w, job :: rest => if w.position = size then w else run size (w.handle size job) rest

theorem run_concat (size : UInt64) (w : Writer) (delivered : List Receiver.Job)
    (job : Receiver.Job) (running : (w.run size delivered).position ≠ size) :
    w.run size (delivered ++ [job]) = (w.run size delivered).handle size job := by
  induction delivered generalizing w with
  | nil =>
      rw [run] at running
      rw [List.nil_append, run, run, if_neg running, run]
  | cons first rest ih =>
      rw [run] at running ⊢
      by_cases complete : w.position = size
      · rw [if_pos complete] at running
        exact absurd complete running
      · rw [if_neg complete] at running
        rw [List.cons_append, run, if_neg complete, if_neg complete]
        exact ih _ running

theorem run_concat_complete (size : UInt64) (w : Writer) (delivered : List Receiver.Job)
    (job : Receiver.Job) (complete : (w.run size delivered).position = size) :
    w.run size (delivered ++ [job]) = w.run size delivered := by
  induction delivered generalizing w with
  | nil =>
      rw [run] at complete
      rw [List.nil_append, run, run, if_pos complete]
  | cons first rest ih =>
      rw [run] at complete
      rw [List.cons_append, run, run]
      split
      next => rfl
      next running =>
        rw [if_neg running] at complete
        exact ih _ complete

/-! ## What is written is not taken back -/

theorem output_drain (size : UInt64) (fuel : Nat) (w : Writer) :
    w.output <+: (w.drain size fuel).output := by
  induction fuel generalizing w with
  | zero => exact List.prefix_refl _
  | succ fuel ih =>
      rw [drain]
      split
      next => exact List.prefix_refl _
      next job _ =>
        have written : w.output <+:
            (writeData { w with cache := w.cache.erase w.position } job.data size).output :=
          List.prefix_append _ _
        exact written.trans (ih _)

/-- A round of the loop only appends to the output. -/
theorem output_handle (size : UInt64) (w : Writer) (job : Receiver.Job) :
    w.output <+: (w.handle size job).output := by
  rw [handle]
  split
  next => exact List.prefix_refl _
  next =>
    split
    next => exact List.prefix_refl _
    next =>
      have written : w.output <+: ((w.writeData job.data size).confirm job.index).output :=
        List.prefix_append _ _
      exact written.trans (output_drain size _ _)

/-! ## The loop on positions -/

/-- Bytes `write_data` writes at a position. -/
def lenAt (size : UInt64) (position : Nat) : Nat :=
  min (size.toNat - position) transferBufferSize

/-- The indexes in a cache. -/
def keySet {V : Type} (cache : HashMap UInt64 V) : Finset Nat :=
  cache.keys.toFinset.image UInt64.toNat

/-- The loop's state, less the data. -/
def keys (w : Writer) : Reorder :=
  ⟨w.position.toNat, keySet w.cache⟩

variable {V : Type} {cache : HashMap UInt64 V} {size index : UInt64} {w : Writer}

theorem toNat_injective : Function.Injective UInt64.toNat :=
  fun _ _ => UInt64.toNat_inj.mp

@[simp] theorem mem_keySet : index.toNat ∈ keySet cache ↔ index ∈ cache := by
  rw [keySet, Finset.mem_image, AList.mem_keys]
  constructor
  · rintro ⟨i, mem, same⟩
    exact toNat_injective same ▸ List.mem_toFinset.mp mem
  · intro mem
    exact ⟨index, List.mem_toFinset.mpr mem, rfl⟩

theorem card_keySet : (keySet cache).card = cache.entries.length := by
  rw [keySet, Finset.card_image_of_injective _ toNat_injective,
    List.toFinset_card_of_nodup cache.keys_nodup]
  exact List.length_map _

theorem keySet_erase : keySet (cache.erase index) = (keySet cache).erase index.toNat := by
  rw [keySet, AList.keys_erase, keySet, ← Finset.image_erase toNat_injective]
  congr 1
  ext i
  rw [List.mem_toFinset, cache.keys_nodup.mem_erase_iff, Finset.mem_erase, List.mem_toFinset]

theorem keySet_insert (value : V) :
    keySet (cache.insert index value) = insert index.toNat (keySet cache) := by
  rw [keySet, AList.keys_insert, keySet, ← Finset.image_insert]
  congr 1
  ext i
  rw [List.toFinset_cons, Finset.mem_insert, Finset.mem_insert, List.mem_toFinset,
    cache.keys_nodup.mem_erase_iff, List.mem_toFinset]
  tauto

/-- The writer stands within its file. -/
def Within (size : UInt64) (w : Writer) : Prop :=
  w.position.toNat ≤ size.toNat

theorem toNat_len (within : w.Within size) :
    (min (size - w.position) (UInt64.ofNat transferBufferSize)).toNat =
      lenAt size w.position.toNat := by
  have sub : (size - w.position).toNat = size.toNat - w.position.toNat :=
    UInt64.toNat_sub_of_le _ _ (UInt64.le_iff_toNat_le.mpr within)
  have chunk : (UInt64.ofNat transferBufferSize).toNat = transferBufferSize := by decide
  change (if size - w.position ≤ UInt64.ofNat transferBufferSize then size - w.position
    else UInt64.ofNat transferBufferSize).toNat = _
  unfold lenAt
  split
  next small =>
    rw [UInt64.le_iff_toNat_le, sub, chunk] at small
    rw [sub, Nat.min_eq_left small]
  next large =>
    rw [UInt64.le_iff_toNat_le, sub, chunk] at large
    rw [chunk, Nat.min_eq_right (by omega)]

theorem position_writeData (within : w.Within size) (buffer : Bytes) :
    (w.writeData buffer size).position.toNat =
      w.position.toNat + lenAt size w.position.toNat := by
  have bound := size.toNat_lt
  have inside : w.position.toNat + lenAt size w.position.toNat ≤ size.toNat := by
    have := within
    unfold Within at this
    unfold lenAt
    omega
  simp only [writeData, UInt64.toNat_add, toNat_len within]
  exact Nat.mod_eq_of_lt (by omega)

theorem Within.writeData (within : w.Within size) (buffer : Bytes) :
    (w.writeData buffer size).Within size := by
  have inside := within
  unfold Within at inside
  rw [Within, position_writeData within, lenAt]
  omega

theorem keys_writeData (within : w.Within size) (buffer : Bytes) :
    (w.writeData buffer size).keys =
      ⟨w.position.toNat + lenAt size w.position.toNat, keySet w.cache⟩ := by
  rw [keys, position_writeData within]
  rfl

theorem keys_drain {fuel : Nat} (within : w.Within size) :
    (w.drain size fuel).keys = w.keys.drain (lenAt size) fuel ∧
      (w.drain size fuel).Within size := by
  induction fuel generalizing w with
  | zero => exact ⟨rfl, within⟩
  | succ fuel ih =>
      rw [drain, Reorder.drain]
      cases found : w.cache.lookup w.position with
      | none =>
          have missing : w.keys.position ∉ w.keys.cache :=
            fun mem => AList.lookup_eq_none.mp found (mem_keySet.mp mem)
          rw [if_neg missing]
          exact ⟨rfl, within⟩
      | some job =>
          have kept : w.keys.position ∈ w.keys.cache :=
            mem_keySet.mpr (AList.lookup_isSome.mp (by rw [found]; rfl))
          have within' : Within size { w with cache := w.cache.erase w.position } := within
          have advanced : (writeData { w with cache := w.cache.erase w.position }
              job.data size).keys = w.keys.advance (lenAt size) := by
            rw [keys_writeData within', keySet_erase]
            rfl
          rw [if_pos kept, ← advanced]
          exact ih (within'.writeData job.data)

theorem Within.handle (within : w.Within size) (job : Receiver.Job) :
    (w.handle size job).Within size := by
  rw [Writer.handle]
  split
  next => exact within
  next =>
    split
    next => exact within
    next =>
      have written : ((w.writeData job.data size).confirm job.index).Within size :=
        within.writeData job.data
      exact (keys_drain written).2

/-- On positions, a round of the loop is an arrival at the reordering consumer. -/
theorem keys_handle (within : w.Within size) (waiting : w.position ∉ w.cache)
    (job : Receiver.Job) :
    (w.handle size job).keys = w.keys.accept (lenAt size) job.index.toNat ∧
      (w.handle size job).Within size := by
  have position_eq : w.keys.position = w.position.toNat := rfl
  rw [handle, Reorder.accept, position_eq]
  simp only [← UInt64.lt_iff_toNat_lt]
  split
  next => exact ⟨rfl, within⟩
  next =>
    split
    next =>
      refine ⟨?_, within⟩
      rw [keys, keySet_insert]
      rfl
    next =>
      have within' := within.writeData job.data
      have advanced : ((w.writeData job.data size).confirm job.index).keys =
          w.keys.advance (lenAt size) := by
        have absent : w.position.toNat ∉ keySet w.cache := fun mem => waiting (mem_keySet.mp mem)
        apply (keys_writeData within job.data).trans
        rw [Reorder.advance]
        exact congrArg _ (Finset.erase_eq_of_notMem absent).symm
      have rounds : ((w.writeData job.data size).confirm job.index).cache.entries.length =
          w.keys.cache.card := card_keySet.symm
      rw [← advanced, rounds]
      exact keys_drain within'

/-- The writer never waits for a chunk it keeps. -/
theorem waiting_handle (within : w.Within size) (waiting : w.position ∉ w.cache)
    (job : Receiver.Job) : (w.handle size job).position ∉ (w.handle size job).cache := by
  have waiting : w.keys.position ∉ w.keys.cache := fun mem => waiting (mem_keySet.mp mem)
  have waiting' : (w.handle size job).keys.position ∉ (w.handle size job).keys.cache := by
    rw [(keys_handle within (fun mem => waiting (mem_keySet.mpr mem)) job).1]
    exact Reorder.position_not_mem_accept waiting
  exact fun mem => waiting' (mem_keySet.mpr mem)

/-! ## Within the keystream -/

/-- The keystream, if it ends, reaches to the end of the file. -/
def Covered (size : UInt64) (w : Writer) : Prop :=
  ∀ n, w.cipher.ends = some n →
    w.Within size ∧ w.cipher.offset ≤ w.position.toNat ∧ size.toNat ≤ n

theorem covered_start {first : UInt64} {cipher : StreamCipher}
    (lasts : ∀ n, cipher.ends = some n → first ≤ size ∧ size.toNat ≤ n) :
    (start first cipher).Covered size := by
  intro n ends
  obtain ⟨within, reach⟩ := lasts n ends
  exact ⟨UInt64.le_iff_toNat_le.mp within, Nat.le_refl _, reach⟩

/-- A round of the loop draws on the same keystream. -/
theorem ends_drain {fuel : Nat} : (w.drain size fuel).cipher.ends = w.cipher.ends := by
  induction fuel generalizing w with
  | zero => rfl
  | succ fuel ih =>
      rw [Writer.drain]
      split
      next => rfl
      next => exact ih.trans (StreamCipher.applyKeystream_ends _ _)

theorem ends_handle (job : Receiver.Job) :
    (w.handle size job).cipher.ends = w.cipher.ends := by
  rw [Writer.handle]
  split
  next => rfl
  next =>
    split
    next => rfl
    next => exact ends_drain.trans (StreamCipher.applyKeystream_ends _ _)

theorem Covered.writeData (covered : w.Covered size) (buffer : Bytes) :
    (w.writeData buffer size).Covered size := by
  intro n ends
  obtain ⟨within, offset, reach⟩ := covered n ends
  refine ⟨within.writeData buffer, ?_, reach⟩
  rw [position_writeData within]
  have len := toNat_len within
  simp only [Writer.writeData, StreamCipher.applyKeystream_offset, List.length_take, len]
  omega

theorem Covered.drain {fuel : Nat} (covered : w.Covered size) :
    (w.drain size fuel).Covered size := by
  induction fuel generalizing w with
  | zero => exact covered
  | succ fuel ih =>
      rw [Writer.drain]
      split
      next => exact covered
      next job _ =>
        have kept : Covered size { w with cache := w.cache.erase w.position } := covered
        exact ih (kept.writeData job.data)

theorem Covered.handle (covered : w.Covered size) (job : Receiver.Job) :
    (w.handle size job).Covered size := by
  rw [Writer.handle]
  split
  next => exact covered
  next =>
    split
    next => exact covered
    next =>
      have written : ((w.writeData job.data size).confirm job.index).Covered size :=
        covered.writeData job.data
      exact written.drain

/-- No call goes past the end. -/
theorem Covered.ranOut_eq_false (covered : w.Covered size) : w.ranOut = false := by
  rw [ranOut, StreamCipher.past_eq_false_iff]
  intro n ends
  obtain ⟨within, offset, reach⟩ := covered n ends
  exact offset.trans (within.trans reach)

end Writer

end Cccp
