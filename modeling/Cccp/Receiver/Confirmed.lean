import Cccp.Receiver.Writer

/-!
# What the writer confirms

The writer confirms a chunk when it writes it at its position or keeps it for later; a
chunk that comes out of its cache was confirmed when it went in.

* `Honest`: what is confirmed was taken, that is, was written or is kept.
* `Told`: all chunks behind the position and all kept ones are confirmed.
-/

namespace Cccp

namespace Writer

variable {size first index : UInt64} {w : Writer}

/-! ## Taken chunks -/

/-- Bytes `write_data` writes of the chunk at `index`. -/
def lenFrom (size index : UInt64) : Nat :=
  (min (size - index) (UInt64.ofNat transferBufferSize)).toNat

/-- The whole chunk at `index` was written, or it is kept. -/
def Taken (size : UInt64) (w : Writer) (index : UInt64) : Prop :=
  index.toNat + lenFrom size index ≤ w.position.toNat ∨ index ∈ w.cache

instance (size : UInt64) (w : Writer) (index : UInt64) : Decidable (w.Taken size index) :=
  inferInstanceAs (Decidable (_ ∨ _))

theorem lenFrom_le : lenFrom size index ≤ transferBufferSize := by
  have chunk : (UInt64.ofNat transferBufferSize).toNat = transferBufferSize := by decide
  change (if size - index ≤ UInt64.ofNat transferBufferSize then size - index
    else UInt64.ofNat transferBufferSize).toNat ≤ _
  split
  next small => exact chunk ▸ UInt64.le_iff_toNat_le.mp small
  next => exact chunk.le

/-- Below the largest file size, a position does not wrap around. -/
theorem position_writeData_small (small : w.position.toNat < 2 ^ 63) (buffer : Bytes) :
    (w.writeData buffer size).position.toNat = w.position.toNat + lenFrom size w.position := by
  have len := @lenFrom_le size w.position
  unfold transferBufferSize at len
  simp only [writeData, UInt64.toNat_add]
  exact Nat.mod_eq_of_lt (by rw [lenFrom] at len; omega)

/-- Writing the chunk at the position keeps what was taken. -/
theorem Taken.writeData (taken : w.Taken size index) (small : w.position.toNat < 2 ^ 63)
    (buffer : Bytes) : (w.writeData buffer size).Taken size index := by
  rcases taken with written | kept
  · left
    rw [position_writeData_small small]
    omega
  · exact .inr kept

theorem taken_writeData (small : w.position.toNat < 2 ^ 63) (buffer : Bytes) :
    (w.writeData buffer size).Taken size w.position :=
  .inl (position_writeData_small small buffer).ge

/-- What is confirmed was taken, and what is kept are chunks of a file. -/
structure Honest (size : UInt64) (w : Writer) : Prop where
  kept : ∀ index ∈ w.cache, index.toNat < 2 ^ 63
  taken : ∀ index ∈ w.confirmed, w.Taken size index

theorem honest_start (cipher : StreamCipher) : (start first cipher).Honest size where
  kept _ mem := absurd mem (AList.notMem_empty _)
  taken := nofun

theorem Honest.drain {fuel : Nat} (honest : w.Honest size) : (w.drain size fuel).Honest size := by
  induction fuel generalizing w with
  | zero => exact honest
  | succ fuel ih =>
      rw [Writer.drain]
      split
      next => exact honest
      next job found =>
        have mem : w.position ∈ w.cache := AList.lookup_isSome.mp (by rw [found]; rfl)
        have small := honest.kept _ mem
        refine ih ⟨fun index here => honest.kept index (AList.mem_erase.mp here).2, ?_⟩
        intro index confirmed
        rcases honest.taken index confirmed with written | kept
        · exact Taken.writeData (w := { w with cache := w.cache.erase w.position }) (.inl written)
            small job.data
        · rcases eq_or_ne index w.position with rfl | apart
          · exact taken_writeData (w := { w with cache := w.cache.erase w.position }) small job.data
          · exact Taken.writeData (w := { w with cache := w.cache.erase w.position })
              (.inr (AList.mem_erase.mpr ⟨apart, kept⟩)) small job.data

/-- The writer confirms only what it has taken. -/
theorem Honest.handle (honest : w.Honest size) {job : Receiver.Job}
    (small : job.index.toNat < 2 ^ 63) : (w.handle size job).Honest size := by
  rw [Writer.handle]
  split
  next => exact honest
  next notBehind =>
    split
    next =>
      refine ⟨?_, ?_⟩
      · intro index mem
        rcases (AList.mem_insert _).mp mem with rfl | mem
        · exact small
        · exact honest.kept index mem
      · intro index confirmed
        rcases List.mem_append.mp confirmed with confirmed | new
        · exact (honest.taken index confirmed).imp_right fun kept =>
            (AList.mem_insert _).mpr (.inr kept)
        · obtain rfl := List.mem_singleton.mp new
          exact .inr ((AList.mem_insert _).mpr (.inl rfl))
    next notAhead =>
      have here : job.index = w.position :=
        UInt64.le_antisymm (UInt64.not_lt.mp notAhead) (UInt64.not_lt.mp notBehind)
      have small : w.position.toNat < 2 ^ 63 := here ▸ small
      refine Honest.drain ⟨honest.kept, ?_⟩
      intro index confirmed
      rcases List.mem_append.mp confirmed with confirmed | new
      · exact (honest.taken index confirmed).writeData small job.data
      · obtain rfl := List.mem_singleton.mp new
        rw [here]
        exact taken_writeData small job.data

/-! ## Confirmations -/

theorem confirmed_drain {fuel : Nat} : (w.drain size fuel).confirmed = w.confirmed := by
  induction fuel generalizing w with
  | zero => rfl
  | succ fuel ih =>
      rw [Writer.drain]
      split
      next => rfl
      next => exact ih

/-- A round of the loop only appends to what is confirmed. -/
theorem confirmed_handle (job : Receiver.Job) :
    w.confirmed <+: (w.handle size job).confirmed := by
  rw [handle]
  split
  next => exact List.prefix_refl _
  next =>
    split
    next => exact List.prefix_append _ _
    next =>
      rw [confirmed_drain]
      exact List.prefix_append _ _

/-- A round of the loop confirms its own chunk only. -/
theorem mem_confirmed_handle {job : Receiver.Job} (mem : index ∈ (w.handle size job).confirmed) :
    index ∈ w.confirmed ∨ index = job.index := by
  have confirm : index ∈ w.confirmed ++ [job.index] → index ∈ w.confirmed ∨ index = job.index := by
    intro mem
    exact (List.mem_append.mp mem).imp_right List.mem_singleton.mp
  rw [handle] at mem
  split at mem
  next => exact .inl mem
  next =>
    split at mem
    next => exact confirm mem
    next =>
      rw [confirmed_drain] at mem
      exact confirm mem

/-- All chunks from `first` to the position and all kept ones are confirmed. -/
structure Told (size first : UInt64) (w : Writer) : Prop where
  from_first : first ≤ w.position
  within : w.Within size
  aligned : transferBufferSize ∣ w.position.toNat - first.toNat ∨ w.position = size
  behind : ∀ index, first ≤ index → index < w.position →
    transferBufferSize ∣ index.toNat - first.toNat → index ∈ w.confirmed
  kept : ∀ index ∈ w.cache, index ∈ w.confirmed

theorem told_start (within : first ≤ size) (cipher : StreamCipher) :
    (start first cipher).Told size first where
  from_first := UInt64.le_refl _
  within := UInt64.le_iff_toNat_le.mp within
  aligned := .inl (by simp [start])
  behind _ above below := absurd below (UInt64.not_lt.mpr above)
  kept _ mem := absurd mem (AList.notMem_empty _)

/-- Writing the confirmed chunk at the position. -/
theorem Told.writeData (told : w.Told size first) (confirmed : w.position ∈ w.confirmed)
    (buffer : Bytes) : (w.writeData buffer size).Told size first := by
  obtain ⟨from_first, within, aligned, behind, kept⟩ := told
  have position := position_writeData within buffer
  have inside := within
  unfold Within at inside
  rw [UInt64.le_iff_toNat_le] at from_first
  unfold lenAt at position
  refine ⟨?_, within.writeData buffer, ?_, ?_, kept⟩
  · rw [UInt64.le_iff_toNat_le]
    omega
  · rw [← UInt64.toNat_inj] at aligned ⊢
    rw [position]
    rcases Nat.le_total transferBufferSize (size.toNat - w.position.toNat) with full | rest
    · rcases aligned with aligned | ended
      · left
        rw [Nat.min_eq_right full, Nat.sub_add_comm from_first]
        exact Nat.dvd_add aligned (Nat.dvd_refl _)
      · right
        omega
    · right
      omega
  · intro index above below aligned'
    rcases Nat.lt_trichotomy index.toNat w.position.toNat with before | here | after
    · exact behind index above (UInt64.lt_iff_toNat_lt.mpr before) aligned'
    · rw [UInt64.toNat_inj.mp here]
      exact confirmed
    · -- the next chunk does not begin before the position it is written at
      exfalso
      rw [UInt64.lt_iff_toNat_lt, position] at below
      rw [UInt64.le_iff_toNat_le] at above
      rcases aligned with aligned | ended
      · obtain ⟨a, same⟩ := aligned
        obtain ⟨b, same'⟩ := aligned'
        rw [transferBufferSize] at *
        omega
      · rw [ended] at below after
        omega

theorem Told.drain {fuel : Nat} (told : w.Told size first) :
    (w.drain size fuel).Told size first := by
  induction fuel generalizing w with
  | zero => exact told
  | succ fuel ih =>
      rw [Writer.drain]
      split
      next => exact told
      next job found =>
        have mem : w.position ∈ w.cache := AList.lookup_isSome.mp (by rw [found]; rfl)
        have erased : Told size first { w with cache := w.cache.erase w.position } :=
          ⟨told.from_first, told.within, told.aligned, told.behind,
            fun index here => told.kept index (AList.mem_erase.mp here).2⟩
        exact ih (erased.writeData (told.kept _ mem) job.data)

/-- The writer leaves out no confirmation. -/
theorem Told.handle (told : w.Told size first) (job : Receiver.Job) :
    (w.handle size job).Told size first := by
  have confirm : ∀ index, Told size first (w.confirm index) := fun index =>
    ⟨told.from_first, told.within, told.aligned,
      fun other above below aligned => List.mem_append_left _ (told.behind other above below aligned),
      fun other mem => List.mem_append_left _ (told.kept other mem)⟩
  rw [Writer.handle]
  split
  next => exact told
  next notBehind =>
    split
    next =>
      obtain ⟨from_first, within, aligned, behind, kept⟩ := confirm job.index
      refine ⟨from_first, within, aligned, behind, ?_⟩
      intro index mem
      rcases (AList.mem_insert _).mp mem with rfl | mem
      · exact List.mem_append_right _ (List.mem_singleton_self _)
      · exact kept index mem
    next notAhead =>
      have here : job.index = w.position :=
        UInt64.le_antisymm (UInt64.not_lt.mp notAhead) (UInt64.not_lt.mp notBehind)
      have mem : w.position ∈ (w.confirm job.index).confirmed := by
        rw [← here]
        exact List.mem_append_right _ (List.mem_singleton_self _)
      exact ((confirm job.index).writeData mem job.data).drain

end Writer

end Cccp
