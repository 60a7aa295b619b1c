import Cccp.Lib.Tiling
import Cccp.Receiver.Confirmed

/-!
# How often the writer confirms

A chunk is confirmed when it is written at the position or goes into the cache.  Nothing
looks whether it is in the cache already: a chunk that waits there and is delivered again is
confirmed again.

* `Settled`: the chunks that were confirmed are those that were accepted, and they are those
  that were delivered (`settled_run`).
* `confirmedOnce_iff` says of which deliveries every chunk is confirmed once.
-/

namespace Cccp

namespace Writer

variable {size first index : UInt64} {w : Writer} {job : Receiver.Job}

/-- A chunk of the file between `first` and its size. -/
def IsChunk (size first index : UInt64) : Prop :=
  first ≤ index ∧ index < size ∧ transferBufferSize ∣ index.toNat - first.toNat

/-- The writer has written the chunk, or keeps it. -/
def Accepted (size first : UInt64) (w : Writer) (index : UInt64) : Prop :=
  IsChunk size first index ∧ index < w.position ∨ index ∈ w.cache

instance : Decidable (IsChunk size first index) := inferInstanceAs (Decidable (_ ∧ _ ∧ _))

instance : Decidable (w.Accepted size first index) := inferInstanceAs (Decidable (_ ∨ _))

/-! ## What is confirmed -/

/-- The writer of a file from `first` on has confirmed what it has accepted. -/
structure Settled (size first : UInt64) (w : Writer) : Prop
    extends w.Told size first where
  waiting : w.position ∉ w.cache
  cached : ∀ index ∈ w.cache, IsChunk size first index
  accepted : ∀ index ∈ w.confirmed, w.Accepted size first index

theorem settled_start (within : first ≤ size) (cipher : StreamCipher) :
    (start first cipher).Settled size first where
  toTold := told_start within cipher
  waiting := AList.notMem_empty _
  cached _ mem := absurd mem (AList.notMem_empty _)
  accepted := nofun

/-- The chunks that were confirmed are those that were accepted. -/
theorem Settled.mem_confirmed_iff (settled : w.Settled size first) :
    index ∈ w.confirmed ↔ w.Accepted size first index := by
  constructor
  · exact settled.accepted index
  · intro holds
    rcases holds with ⟨⟨above, -, aligned⟩, behind⟩ | kept
    · exact settled.behind index above behind aligned
    · exact settled.kept index kept

/-- Below the size, writing moves on. -/
theorem lt_position_writeData (within : w.Within size) (below : w.position < size)
    (buffer : Bytes) : w.position < (w.writeData buffer size).position := by
  have pos : 0 < transferBufferSize := by decide
  rw [UInt64.lt_iff_toNat_lt] at below ⊢
  rw [position_writeData within, lenAt]
  omega

/-- What was accepted stays accepted while kept chunks are written. -/
theorem accepted_drain {fuel : Nat} (within : w.Within size)
    (chunks : ∀ index ∈ w.cache, IsChunk size first index)
    (accepted : w.Accepted size first index) : (w.drain size fuel).Accepted size first index := by
  induction fuel generalizing w with
  | zero => exact accepted
  | succ fuel ih =>
      rw [Writer.drain]
      split
      next => exact accepted
      next job found =>
        have mem : w.position ∈ w.cache := AList.lookup_isSome.mp (by rw [found]; rfl)
        have here := chunks _ mem
        have further := lt_position_writeData (w := { w with cache := w.cache.erase w.position })
          within here.2.1 job.data
        refine ih (Within.writeData (w := { w with cache := w.cache.erase w.position })
          within job.data) (fun i kept => chunks i (AList.mem_erase.mp kept).2) ?_
        rcases accepted with ⟨chunk, behind⟩ | kept
        · exact .inl ⟨chunk, UInt64.lt_trans behind further⟩
        · by_cases same : index = w.position
          · exact .inl ⟨same ▸ here, same ▸ further⟩
          · exact .inr (AList.mem_erase.mpr ⟨same, kept⟩)

theorem mem_cache_drain {fuel : Nat} (mem : index ∈ (w.drain size fuel).cache) :
    index ∈ w.cache := by
  induction fuel generalizing w with
  | zero => exact mem
  | succ fuel ih =>
      rw [Writer.drain] at mem
      split at mem
      next => exact mem
      next => exact (AList.mem_erase.mp (ih mem)).2

/-- A round confirms its chunk unless it is behind the position. -/
theorem confirmed_handle_eq (size : UInt64) (w : Writer) (job : Receiver.Job) :
    (w.handle size job).confirmed =
      if job.index < w.position then w.confirmed else w.confirmed ++ [job.index] := by
  rw [handle]
  split
  next => rfl
  next =>
    split
    next => rfl
    next =>
      rw [confirmed_drain]
      rfl

theorem mem_confirmed_handle_iff (settled : w.Settled size first)
    (chunk : IsChunk size first job.index) :
    index ∈ (w.handle size job).confirmed ↔ index ∈ w.confirmed ∨ index = job.index := by
  rw [confirmed_handle_eq]
  split
  next behind =>
    have already : job.index ∈ w.confirmed := settled.behind _ chunk.1 behind chunk.2.2
    exact (or_iff_left_of_imp fun same => same ▸ already).symm
  next => rw [List.mem_append, List.mem_singleton]

/-- A round keeps the account, and accepts its chunk. -/
theorem Settled.handle (settled : w.Settled size first) (chunk : IsChunk size first job.index) :
    (w.handle size job).Settled size first := by
  have within := settled.within
  have all : ∀ i, i ∈ w.confirmed ∨ i = job.index → (w.handle size job).Accepted size first i := by
    rw [Writer.handle]
    split
    next behind =>
      intro i holds
      rcases holds with confirmed | rfl
      · exact settled.accepted i confirmed
      · exact .inl ⟨chunk, behind⟩
    next notBehind =>
      split
      next =>
        intro i holds
        rcases holds with confirmed | rfl
        · exact (settled.accepted i confirmed).imp_right fun kept =>
            (AList.mem_insert _).mpr (.inr kept)
        · exact .inr ((AList.mem_insert _).mpr (.inl rfl))
      next notAhead =>
        have here : job.index = w.position :=
          UInt64.le_antisymm (UInt64.not_lt.mp notAhead) (UInt64.not_lt.mp notBehind)
        have further := lt_position_writeData within (here ▸ chunk.2.1) job.data
        intro i confirmed
        refine accepted_drain (within.writeData job.data) settled.cached ?_
        rcases confirmed with confirmed | rfl
        · exact (settled.accepted i confirmed).imp_left fun behind =>
            ⟨behind.1, UInt64.lt_trans behind.2 further⟩
        · exact .inl ⟨chunk, here ▸ further⟩
  refine ⟨settled.toTold.handle job, waiting_handle within settled.waiting job, ?_,
    fun i confirmed => all i ((mem_confirmed_handle_iff settled chunk).mp confirmed)⟩
  intro i mem
  rw [Writer.handle] at mem
  split at mem
  next => exact settled.cached i mem
  next =>
    split at mem
    next =>
      rcases (AList.mem_insert _).mp mem with rfl | mem
      · exact chunk
      · exact settled.cached i mem
    next =>
      have kept : i ∈ ((w.writeData job.data size).confirm job.index).cache := mem_cache_drain mem
      exact settled.cached i kept

/-- **What is confirmed is what was delivered**, in every state of a run. -/
theorem Settled.run (settled : w.Settled size first) {delivered : List Receiver.Job}
    (chunks : ∀ job ∈ delivered, IsChunk size first job.index) :
    (w.run size delivered).Settled size first ∧ ∀ index, index ∈ (w.run size delivered).confirmed ↔
      index ∈ w.confirmed ∨ index ∈ delivered.map Receiver.Job.index := by
  induction delivered generalizing w with
  | nil => exact ⟨settled, fun index => (or_iff_left List.not_mem_nil).symm⟩
  | cons job rest ih =>
      rw [Writer.run]
      split
      next complete =>
        -- the loop has ended, and everything was confirmed
        refine ⟨settled, fun index => (or_iff_left_of_imp fun mem => ?_).symm⟩
        obtain ⟨job', listed, rfl⟩ := List.mem_map.mp mem
        obtain ⟨above, below, aligned⟩ := chunks job' listed
        exact settled.behind _ above (complete ▸ below) aligned
      next =>
        have chunk := chunks job List.mem_cons_self
        obtain ⟨settled', confirmed⟩ :=
          ih (settled.handle chunk) fun other mem => chunks other (List.mem_cons_of_mem _ mem)
        refine ⟨settled', fun index => ?_⟩
        rw [confirmed, mem_confirmed_handle_iff settled chunk, List.map_cons, List.mem_cons,
          or_assoc]

/-! ## Once -/

/-- Every accepted chunk was confirmed once and no other chunk was, so that there are no more
confirmations than chunks. -/
structure ConfirmedOnce (size first : UInt64) (w : Writer) : Prop where
  once : ∀ index, w.confirmed.count index = if w.Accepted size first index then 1 else 0
  bounded : w.confirmed.length ≤ (Tiling.grid transferBufferSize first.toNat size.toNat).length

/-- A chunk is only delivered again when all chunks up to it, from `first` on, have been. -/
def NoEarlyRepeat (first : UInt64) (delivered : List UInt64) : Prop :=
  ∀ before index after, delivered = before ++ index :: after → index ∈ before →
    ∀ chunk, first ≤ chunk → chunk ≤ index → transferBufferSize ∣ chunk.toNat - first.toNat →
      chunk ∈ before

/-- Without duplicates nothing is delivered again. -/
theorem noEarlyRepeat_of_nodup {delivered : List UInt64} (nodup : delivered.Nodup) :
    NoEarlyRepeat first delivered := by
  intro before index after same mem
  obtain rfl := same
  exact absurd List.mem_cons_self ((List.nodup_append.mp nodup).2.2 index mem index · rfl)

theorem mem_grid_of_isChunk (chunk : IsChunk size first index) :
    index.toNat ∈ Tiling.grid transferBufferSize first.toNat size.toNat := by
  obtain ⟨above, below, aligned⟩ := chunk
  exact Tiling.mem_grid (by decide) (UInt64.le_iff_toNat_le.mp above)
    (UInt64.lt_iff_toNat_lt.mp below) aligned

/-- Confirmed once is confirmed without repetition. -/
theorem Settled.once_iff (settled : w.Settled size first) :
    w.ConfirmedOnce size first ↔ w.confirmed.Nodup := by
  constructor
  · intro confirmed
    apply List.nodup_iff_count_le_one.mpr
    intro index
    rw [confirmed.once]
    split <;> omega
  · intro nodup
    refine ⟨fun index => ?_, ?_⟩
    · split
      next accepted =>
        exact List.count_eq_one_of_mem nodup (settled.mem_confirmed_iff.mpr accepted)
      next other =>
        exact List.count_eq_zero_of_not_mem fun mem => other (settled.mem_confirmed_iff.mp mem)
    · have chunks : w.confirmed.map UInt64.toNat ⊆
          Tiling.grid transferBufferSize first.toNat size.toNat := by
        intro place mem
        obtain ⟨index, confirmed, rfl⟩ := List.mem_map.mp mem
        rcases settled.accepted index confirmed with ⟨chunk, -⟩ | kept
        · exact mem_grid_of_isChunk chunk
        · exact mem_grid_of_isChunk (settled.cached index kept)
      have fewer := ((nodup.map toNat_injective).subperm chunks).length_le
      rwa [List.length_map] at fewer

/-- A chunk that was delivered is behind the position exactly if all chunks up to it were
delivered. -/
theorem Settled.lt_position_iff (settled : w.Settled size first)
    (chunk : IsChunk size first index) :
    index ∈ w.confirmed ∧ index < w.position ↔
      ∀ other, first ≤ other → other ≤ index →
        transferBufferSize ∣ other.toNat - first.toNat → other ∈ w.confirmed := by
  constructor
  · intro holds other above le aligned
    obtain ⟨-, behind⟩ := holds
    exact settled.behind other above (UInt64.lt_of_le_of_lt le behind) aligned
  · intro all
    have confirmed := all index chunk.1 (UInt64.le_refl _) chunk.2.2
    refine ⟨confirmed, ?_⟩
    by_contra ahead
    have le := UInt64.not_lt.mp ahead
    -- the position is a chunk up to it, which is neither written nor kept
    have below := UInt64.lt_of_le_of_lt le chunk.2.1
    have aligned := settled.aligned.resolve_right fun complete => by
      rw [complete] at below
      exact UInt64.lt_irrefl _ below
    rcases settled.accepted _ (all w.position settled.from_first le aligned) with ⟨-, behind⟩ | kept
    · exact UInt64.lt_irrefl _ behind
    · exact settled.waiting kept

/-- A round keeps the confirmations apart unless its chunk was delivered before and is not
behind the position. -/
theorem nodup_handle_iff (size : UInt64) (nodup : w.confirmed.Nodup) (job : Receiver.Job) :
    (w.handle size job).confirmed.Nodup ↔ (job.index ∈ w.confirmed → job.index < w.position) := by
  rw [confirmed_handle_eq]
  split
  next behind => exact iff_of_true nodup fun _ => behind
  next ahead =>
    rw [List.nodup_append_comm, List.singleton_append, List.nodup_cons]
    constructor
    · exact fun apart mem => absurd mem apart.1
    · exact fun absent => ⟨fun mem => ahead (absent mem), nodup⟩

/-- What a run of deliveries leads to, and has confirmed. -/
theorem settled_run (within : first ≤ size) (cipher : StreamCipher) {delivered : List Receiver.Job}
    (chunks : ∀ job ∈ delivered, IsChunk size first job.index) :
    ((start first cipher).run size delivered).Settled size first ∧ ∀ index,
      index ∈ ((start first cipher).run size delivered).confirmed ↔
        index ∈ delivered.map Receiver.Job.index := by
  obtain ⟨settled, confirmed⟩ := (settled_start within cipher).run chunks
  exact ⟨settled, fun index => (confirmed index).trans (or_iff_right List.not_mem_nil)⟩

/-- One more delivery keeps the confirmations apart exactly if its chunk is new, or all chunks
up to it were delivered. -/
theorem nodup_run_concat_iff (within : first ≤ size) (cipher : StreamCipher)
    {delivered : List Receiver.Job}
    (chunks : ∀ other ∈ delivered ++ [job], IsChunk size first other.index)
    (nodup : ((start first cipher).run size delivered).confirmed.Nodup) :
    ((start first cipher).run size (delivered ++ [job])).confirmed.Nodup ↔
      (job.index ∈ delivered.map Receiver.Job.index →
        ∀ other, first ≤ other → other ≤ job.index →
          transferBufferSize ∣ other.toNat - first.toNat →
            other ∈ delivered.map Receiver.Job.index) := by
  obtain ⟨settled, confirmed⟩ := settled_run within cipher fun other mem =>
    chunks other (List.mem_append_left _ mem)
  have chunk := chunks job (List.mem_append_right _ (List.mem_singleton_self job))
  simp only [← confirmed]
  by_cases complete : ((start first cipher).run size delivered).position = size
  · -- the loop has ended, with every chunk delivered
    rw [run_concat_complete size _ delivered job complete]
    apply iff_of_true nodup
    intro _ other above le aligned
    apply settled.behind other above _ aligned
    rw [complete]
    exact UInt64.lt_of_le_of_lt le chunk.2.1
  · rw [run_concat size _ delivered job complete, nodup_handle_iff size nodup]
    constructor
    · exact fun behind mem => (settled.lt_position_iff chunk).mp ⟨mem, behind mem⟩
    · exact fun all mem => ((settled.lt_position_iff chunk).mpr (all mem)).2

/-- A run confirms no chunk twice exactly if none is delivered again too early. -/
theorem nodup_run_iff (within : first ≤ size) (cipher : StreamCipher)
    {delivered : List Receiver.Job} (chunks : ∀ job ∈ delivered, IsChunk size first job.index) :
    (∀ initial, initial <+: delivered →
        ((start first cipher).run size initial).confirmed.Nodup) ↔
      NoEarlyRepeat first (delivered.map Receiver.Job.index) := by
  constructor
  · intro nodup before index after shape mem
    obtain ⟨initial, later, rfl, rfl, tail⟩ := List.map_eq_append_iff.mp shape
    obtain ⟨job, rest, rfl, rfl, rfl⟩ := List.map_eq_cons_iff.mp tail
    have part : initial ++ [job] <+: initial ++ job :: rest :=
      ⟨rest, by rw [List.append_assoc, List.singleton_append]⟩
    have own := nodup initial (List.prefix_append _ _)
    exact (nodup_run_concat_iff within cipher (fun other mem => chunks other (part.subset mem))
      own).mp (nodup _ part) mem
  · intro apart initial
    induction initial using List.reverseRecOn with
    | nil => exact fun _ => List.nodup_nil
    | append_singleton initial job ih =>
        intro part
        have before := ih ((List.prefix_append _ _).trans part)
        obtain ⟨rest, rfl⟩ := part
        refine (nodup_run_concat_iff within cipher
          (fun other mem => chunks other (List.mem_append_left _ mem)) before).mpr ?_
        apply apart _ _ (rest.map Receiver.Job.index)
        rw [List.append_assoc, List.map_append, List.singleton_append, List.map_cons]

/-- In the beginning no chunk is accepted. -/
theorem confirmedOnce_start (cipher : StreamCipher) :
    (start first cipher).ConfirmedOnce size first := by
  refine ⟨fun index => (if_neg fun accepted => ?_).symm, Nat.zero_le _⟩
  rcases accepted with ⟨⟨above, -, -⟩, behind⟩ | kept
  · exact UInt64.not_lt.mpr above behind
  · exact AList.notMem_empty _ kept

/-- **Each chunk is confirmed exactly once** in every state between two deliveries, if and
only if no chunk is delivered again while a chunk before it is still missing. -/
theorem confirmedOnce_iff {cipher : StreamCipher} {delivered : List Receiver.Job}
    (chunks : ∀ job ∈ delivered, IsChunk size first job.index) :
    (∀ initial, initial <+: delivered →
        ((start first cipher).run size initial).ConfirmedOnce size first) ↔
      NoEarlyRepeat first (delivered.map Receiver.Job.index) := by
  by_cases within : first ≤ size
  · rw [← nodup_run_iff within cipher chunks]
    apply forall₂_congr
    intro initial part
    exact (settled_run within cipher fun job mem => chunks job (part.subset mem)).1.once_iff
  · have none_ : delivered = [] := List.eq_nil_iff_forall_not_mem.mpr fun job mem => by
      obtain ⟨above, below, -⟩ := chunks job mem
      exact within (UInt64.le_of_lt (UInt64.lt_of_le_of_lt above below))
    subst none_
    apply iff_of_true
    · intro initial part
      rw [List.prefix_nil.mp part]
      exact confirmedOnce_start cipher
    · exact noEarlyRepeat_of_nodup List.nodup_nil

end Writer

/-- A chunk of a file of 2048 bytes. -/
def zeroChunk (index : UInt64) : Receiver.Job := ⟨List.replicate transferBufferSize 0, index⟩

/-- Both chunks, the second one first. -/
theorem confirmedOnce_iff_two_chunks :
    ((Writer.start 0 ⟨fun _ => 0, 0, none⟩).run 2048
      [zeroChunk 1024, zeroChunk 0]).ConfirmedOnce 2048 0 := by
  refine (Writer.confirmedOnce_iff ?_).mpr ?_ _ (List.prefix_refl _)
  · intro job mem
    simp only [List.mem_cons, List.not_mem_nil, or_false] at mem
    rcases mem with rfl | rfl <;> decide
  · exact Writer.noEarlyRepeat_of_nodup (by decide)

/-- The second chunk, and again before the first. -/
theorem cached_confirmed_twice :
    ((Writer.start 0 ⟨fun _ => 0, 0, none⟩).run 2048 [zeroChunk 1024, zeroChunk 1024]).confirmed =
        [1024, 1024] ∧
      ¬ ((Writer.start 0 ⟨fun _ => 0, 0, none⟩).run 2048
        [zeroChunk 1024, zeroChunk 1024]).ConfirmedOnce 2048 0 := by
  have confirmed : ((Writer.start 0 ⟨fun _ => 0, 0, none⟩).run 2048
      [zeroChunk 1024, zeroChunk 1024]).confirmed = [1024, 1024] := rfl
  refine ⟨confirmed, fun once => ?_⟩
  have count := once.once 1024
  rw [confirmed] at count
  split at count <;> cases count

end Cccp
