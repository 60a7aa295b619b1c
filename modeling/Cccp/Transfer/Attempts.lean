import Cccp.Transfer.Delivery

/-!
# The latest attempts

The readers that still read, the chunks that were queued and the writers all belong to the
latest attempt of their id (`Tracked`), as long as an id is only started again when its
readers are through and none of its jobs is in memory.
-/

namespace Cccp

namespace Transfer

open Reader (ChunkPosition)

/-- Readers, chunks and writers begin where the latest attempt of their id begins. -/
structure Tracked (cfg : Config) (s : State) : Prop where
  readers : ∀ reader ∈ s.flow.readers, reader.active = true →
    ∃ first, (s.attempts reader.id).first? = some first ∧ reader.From (cfg.source reader.id) first
  chunks : ∀ k ∈ s.flow.produced, ∃ first, (s.attempts k.1).first? = some first ∧
    ChunkPosition (cfg.source k.1).contents first.toNat k.2.toNat
  told : ∀ id first w, (s.attempts id).first? = some first → (s.attempts id).writer? = some w →
    first ≤ cfg.size id → w.Told (cfg.size id) first

/-- Nothing is left of the earlier attempt of an id that is started again. -/
def ClearsFirst (s : State) (action : Action) : Prop :=
  ∀ id index cipher, action = .retry id index cipher → Flow.Cleared id s.flow

variable {cfg : Config} {s s' : State} {action : Action} {k : ChunkKey} {id : UInt32}

theorem tracked_init : Tracked cfg (initial cfg) where
  readers := nofun
  chunks := nofun
  told := nofun

/-! ## Steps -/

/-- The attempt of an id goes on. -/
theorem Tracked.setAttempt (tracked : Tracked cfg s) (confirmations : List ChunkKey)
    (failures : List UInt32) {attempt : Attempt}
    (same : attempt.first? = (s.attempts id).first?)
    (told : ∀ first w, attempt.first? = some first → attempt.writer? = some w →
      first ≤ cfg.size id → w.Told (cfg.size id) first) :
    Tracked cfg ({ s with
      confirmations := confirmations, failures := failures }.setAttempt id attempt) := by
  have begins : ∀ other, (({ s with confirmations := confirmations, failures := failures
      }.setAttempt id attempt).attempts other).first? = (s.attempts other).first? := by
    intro other
    by_cases own : other = id
    · rw [own, setAttempt_self, same]
    · rw [setAttempt_ne _ own]
  refine ⟨?_, ?_, ?_⟩
  · intro reader mem live
    rw [begins]
    exact tracked.readers reader mem live
  · intro k mem
    rw [begins]
    exact tracked.chunks k mem
  · intro other first w start writes
    by_cases own : other = id
    · subst own
      rw [setAttempt_self] at start writes
      exact told first w start writes
    · rw [setAttempt_ne _ own] at start writes
      exact tracked.told other first w start writes

/-- A step of the sender's tasks. -/
theorem Tracked.flow (tracked : Tracked cfg s) {flow : Flow.State} {step : Flow.Action}
    (going : step.starts = false) (move : Flow.Move cfg.flow s.flow step flow)
    (network : List Bytes) (confirmations : List ChunkKey) :
    Tracked cfg { s.setFlow flow with network := network, confirmations := confirmations } := by
  refine ⟨?_, ?_, tracked.told⟩
  · intro reader mem live
    obtain ⟨old, mem, continues⟩ := Flow.continues_move going move mem
    obtain ⟨first, begins, from_⟩ := tracked.readers old mem (continues.active live)
    exact ⟨first, by rw [continues.id]; exact begins, continues.from_ _ _ (continues.id ▸ from_)⟩
  · intro k mem
    rcases Flow.mem_produced_move move mem with
      there | ⟨job, ⟨reader, there, own, live, chunks⟩, rfl⟩
    · exact tracked.chunks k there
    · obtain ⟨first, begins, from_⟩ := tracked.readers reader there live
      rw [own] at begins from_
      exact ⟨first, begins, (chunks _ _ from_).1⟩

/-- A new attempt begins. -/
theorem Tracked.restart (tracked : Tracked cfg s) {index : UInt64} {cipher : StreamCipher}
    {flow : Flow.State} (failures : List UInt32)
    (readers : flow.readers = s.flow.readers ++ [⟨id, .opening (cfg.source id) index cipher⟩])
    (idle : ∀ reader ∈ s.flow.readers, reader.id = id → reader.active = false)
    (produced : ∀ k ∈ flow.produced, k ∈ s.flow.produced ∧ k.1 ≠ id) :
    Tracked cfg (({ s with failures := failures }.setFlow flow).setAttempt id
      (.starting index cipher)) := by
  refine ⟨?_, ?_, ?_⟩
  · intro reader mem live
    rcases List.mem_append.mp (readers ▸ mem) with mem | new
    · have apart : reader.id ≠ id := by
        intro own
        rw [idle reader mem own] at live
        cases live
      rw [setAttempt_ne _ apart]
      exact tracked.readers reader mem live
    · obtain rfl := List.mem_singleton.mp new
      exact ⟨index, by rw [setAttempt_self]; rfl, rfl, rfl⟩
  · intro k mem
    obtain ⟨mem, apart⟩ := produced k mem
    rw [setAttempt_ne _ apart]
    exact tracked.chunks k mem
  · intro other first w begins writes
    by_cases own : other = id
    · rw [own, setAttempt_self] at writes
      cases writes
    · rw [setAttempt_ne _ own] at begins writes
      exact tracked.told other first w begins writes

theorem tracked_move (tracked : Tracked cfg s) (accounted : Flow.Accounted cfg.flow s.flow)
    (clears : ClearsFirst s action) (move : Move cfg s action s') : Tracked cfg s' := by
  cases move with
  | @started id index cipher fresh =>
      refine tracked.restart s.failures rfl ?_ fun k mem => ⟨mem, ?_⟩
      · rintro reader mem rfl
        exact absurd (accounted.known.1 reader mem) fresh
      · rintro rfl
        exact fresh (accounted.known.2 k mem)
  | @retried id index cipher failed known =>
      refine tracked.restart _ rfl (clears id index cipher rfl).2 fun k mem => ?_
      obtain ⟨mem, apart⟩ := List.mem_filter.mp mem
      exact ⟨mem, of_decide_eq_true apart⟩
  | @flowed action flow own move =>
      refine tracked.flow ?_ move _ _
      cases action <;> first | rfl | cases own
  | @opened id first cipher here =>
      refine tracked.setAttempt s.confirmations s.failures (by rw [here]; rfl) ?_
      rintro other w ⟨⟩ ⟨⟩ started
      exact Writer.told_start started cipher
  | @handled index datagram id job first w mem frame here more =>
      refine tracked.setAttempt _ s.failures (by rw [here]; rfl) ?_
      rintro other w' ⟨⟩ ⟨⟩ started
      exact (tracked.told id first w (by rw [here]; rfl) (by rw [here]; rfl) started).handle job
  | ignored => exact tracked
  | @mismatched id first w here complete =>
      refine tracked.setAttempt s.confirmations _ (by rw [here]; rfl) ?_
      rintro other w' ⟨⟩ ⟨⟩ started
      exact tracked.told id first w (by rw [here]; rfl) (by rw [here]; rfl) started
  | @failed id first w here =>
      refine tracked.setAttempt s.confirmations s.failures (by rw [here]; rfl) ?_
      rintro other w' ⟨⟩ ⟨⟩ started
      exact tracked.told id first w (by rw [here]; rfl) (by rw [here]; rfl) started
  | @confirmed key flow mem move => exact tracked.flow rfl move s.network _

/-- What the sender's tasks account for stays so. -/
theorem accounted_move (accounted : Flow.Accounted cfg.flow s.flow) (clears : ClearsFirst s action)
    (move : Move cfg s action s') : Flow.Accounted cfg.flow s'.flow := by
  have flow : ∀ {step : Flow.Action} {flow : Flow.State}, step.starts = false →
      Flow.Move cfg.flow s.flow step flow → Flow.Accounted cfg.flow flow := by
    intro step flow going move
    refine Flow.accounted_move accounted (fun id file index cipher restart => ?_) move
    rw [restart] at going
    cases going
  cases move with
  | @started id index cipher fresh =>
      refine accounted.spawn ?_ ?_ _ _ _
      · rintro k mem rfl
        exact fresh (accounted.known.2 k mem)
      · rintro reader mem rfl
        exact absurd (accounted.known.1 reader mem) fresh
  | @retried id index cipher failed known =>
      obtain ⟨cleared, idle⟩ := clears id index cipher rfl
      refine (accounted.replaceAttempt cleared).spawn (fun k mem => ?_) idle _ _ _
      exact of_decide_eq_true (List.mem_filter.mp mem).2
  | @flowed action next own move =>
      refine flow ?_ move
      cases action <;> first | rfl | cases own
  | confirmed mem move => exact flow rfl move
  | opened | handled | ignored | mismatched | failed => exact accounted

/-! ## Complete attempts -/

theorem copies_of_retired (accounted : Flow.Accounted cfg.flow s.flow)
    (retired : k ∈ s.flow.retired) : Flow.copies k s.flow = 0 := by
  have counts := accounted.counts k
  have once := List.nodup_iff_count_le_one.mp accounted.once k
  have pos := List.count_pos_iff.mpr retired
  omega

/-- A writer that has come to the end of its file has confirmed every chunk below it. -/
theorem Tracked.told_of_complete (tracked : Tracked cfg s) {first : UInt64} {w : Writer}
    (here : s.attempts id = .ended first w) (complete : w.position = cfg.size id) {index : UInt64}
    (chunk : ChunkPosition (cfg.source id).contents first.toNat index.toNat)
    (below : index.toNat < (cfg.size id).toNat) : Told s (id, index) := by
  obtain ⟨above, -, aligned⟩ := chunk
  have started : first ≤ cfg.size id := by
    rw [UInt64.le_iff_toNat_le]
    omega
  have told := tracked.told id first w (by rw [here]; rfl) (by rw [here]; rfl) started
  refine ⟨w, by rw [here]; rfl, told.behind index (UInt64.le_iff_toNat_le.mpr above) ?_ aligned⟩
  rw [complete, UInt64.lt_iff_toNat_lt]
  exact below

end Transfer

end Cccp
