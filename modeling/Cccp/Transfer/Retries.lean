import Cccp.Transfer.Attempts

/-!
# What an earlier attempt leaves behind

`start_file_transfer` is called again for an id whose writer has found a wrong hash, and
nothing clears the sender's memory of the attempt before.  Jobs whose confirmation was
still on its way stay in the cache, and a confirmation that arrives twice, or for a job
that is back in the cache, leaves a key in the set of lost confirmations for good.

`InTime` excludes these steps: it follows which confirmations came while their job was outside
the cache, until the job times out there.  In the runs without them every retry finds the sender
clean (`retries_start_clean`); `retry_left_behind` is a run that has one.
-/

namespace Cccp

namespace Transfer

open Reader (ChunkPosition)

/-! ## Confirmations in time -/

/-- A state, and the late confirmations: the chunks that were confirmed while their job was
outside the cache, and whose job has not timed out in the cache since. -/
structure Timed where
  state : State
  late : Finset ChunkKey

namespace Timed

variable (t : Timed)

/-- The late confirmations after a step. -/
def lateAfter : Action → Finset ChunkKey
  | .confirm k => if k ∈ t.state.flow.cache then t.late else insert k t.late
  | .sender (.timeout k) => if k ∈ t.state.flow.cache then t.late.erase k else t.late
  | _ => t.late

end Timed

/-- The data path, with its late confirmations. -/
def timed (cfg : Config) : Machine Timed Action where
  init t := t = ⟨initial cfg, ∅⟩
  step t action := (step cfg t.state action).map fun s => ⟨s, t.lateAfter action⟩

/-- Confirmations come while their job is outstanding, and not for a job that is back in the
cache after a late one; an id is retried when its confirmations have arrived and none of them is
late; and its file is no longer than its size in the manifest. -/
def InTime (cfg : Config) (t : Timed) : Action → Prop
  | .retry id _ _ =>
      (cfg.source id).contents.length ≤ (cfg.size id).toNat ∧
        (∀ k ∈ t.state.confirmations, k.1 ≠ id) ∧ ∀ k ∈ t.late, k.1 ≠ id
  | .confirm k =>
      (k ∈ t.state.flow.cache → k ∉ t.late) ∧
        (k ∉ t.state.flow.cache → 0 < Flow.copies k t.state.flow)
  | _ => True

instance (cfg : Config) (t : Timed) (action : Action) : Decidable (InTime cfg t action) :=
  match action with
  | .retry .. =>
      @instDecidableAnd _ _ (Nat.decLe _ _)
        (@instDecidableAnd _ _ (List.decidableBAll _ _) Finset.decidableDforallFinset)
  | .confirm _ => inferInstanceAs (Decidable (_ ∧ _))
  | .start .. | .sender _ | .open_ _ | .deliver _ | .mismatch _ | .writerFails _ =>
      inferInstanceAs (Decidable True)

/-- `InTime`, where the late confirmations are those that count as lost. -/
def Settles (cfg : Config) (s : State) (action : Action) : Prop :=
  InTime cfg ⟨s, s.flow.lost⟩ action

/-- What a clean retry needs to hold before it. -/
structure Clean (cfg : Config) (s : State) : Prop where
  accounted : Flow.Accounted cfg.flow s.flow
  carried : Carried cfg s
  settled : Settled s
  owed : ∀ k ∈ s.flow.lost, k ∈ s.flow.produced ∧ k ∉ s.flow.retired
  readers : ∀ reader ∈ s.flow.readers, reader.active = true →
    ∃ first, (s.attempts reader.id).first? = some first ∧ reader.From (cfg.source reader.id) first
  chunks : ∀ k ∈ s.flow.produced, ∃ first, (s.attempts k.1).first? = some first ∧
    ChunkPosition (cfg.source k.1).contents first.toNat k.2.toNat
  told : ∀ id first w, (s.attempts id).first? = some first → (s.attempts id).writer? = some w →
    first ≤ cfg.size id → w.Told (cfg.size id) first
  failed : s.failures.Nodup ∧ ∀ id ∈ s.failures, ∃ first w,
    s.attempts id = .ended first w ∧ w.position = cfg.size id

variable {cfg : Config} {s s' : State} {action : Action} {k : ChunkKey} {id : UInt32}

theorem clean_init : Clean cfg (initial cfg) where
  accounted := Flow.accounted_init
  carried := carried_init
  settled := nofun
  owed := nofun
  readers := nofun
  chunks := nofun
  told := nofun
  failed := ⟨List.nodup_nil, nofun⟩

/-! ## A retry -/

theorem Clean.tracked (clean : Clean cfg s) : Tracked cfg s :=
  ⟨clean.readers, clean.chunks, clean.told⟩

/-- Every chunk of a failed attempt has been retired. -/
theorem Clean.retired (clean : Clean cfg s) {first : UInt64} {w : Writer}
    (here : s.attempts id = .ended first w) (complete : w.position = cfg.size id)
    (settles : Settles cfg s (.retry id first w.cipher)) {index : UInt64}
    (chunk : ChunkPosition (cfg.source id).contents first.toNat index.toNat) :
    (id, index) ∈ s.flow.retired := by
  obtain ⟨fits, arrived, timedOut⟩ := settles
  have below : index.toNat < (cfg.size id).toNat := Nat.lt_of_lt_of_le chunk.2.1 fits
  rcases clean.settled _ (clean.tracked.told_of_complete here complete chunk below) with
    mem | mem | mem
  · exact absurd rfl (arrived _ mem)
  · exact absurd rfl (timedOut _ mem)
  · exact mem

/-- The sender is clean when an attempt is retried in time. -/
theorem Clean.cleared (clean : Clean cfg s) (failed : id ∈ s.failures) {index : UInt64}
    {cipher : StreamCipher} (settles : Settles cfg s (.retry id index cipher)) :
    Flow.Cleared id s.flow ∧ ∀ k ∈ s.flow.lost, k.1 ≠ id := by
  obtain ⟨first, w, here, complete⟩ := clean.failed.2 id failed
  have retired : ∀ index : UInt64,
      ChunkPosition (cfg.source id).contents first.toNat index.toNat →
        (id, index) ∈ s.flow.retired :=
    fun index chunk => clean.retired here complete settles chunk
  have begins : ∀ other, (s.attempts id).first? = some other → other = first := by
    intro other same
    rw [here] at same
    exact (Option.some.inj same).symm
  refine ⟨⟨fun index => ?_, fun reader mem own => ?_⟩, fun k mem own => ?_⟩
  · by_contra outstanding
    have produced := (Flow.mem_produced_iff clean.accounted).mpr
      (.inl (Nat.pos_of_ne_zero outstanding))
    obtain ⟨other, same, chunk⟩ := clean.chunks _ produced
    obtain rfl := begins other same
    exact outstanding (copies_of_retired clean.accounted (retired index chunk))
  · rw [← Bool.not_eq_true]
    intro live
    obtain ⟨other, same, from_⟩ := clean.readers reader mem live
    rw [own] at same from_
    obtain rfl := begins other same
    obtain ⟨index, chunk, at_⟩ := from_.next_chunk live
    -- the reader's next chunk has been retired, but it is past all that were queued
    have produced := (Flow.mem_produced_iff clean.accounted).mpr (.inr (retired index chunk))
    obtain ⟨r, held, past⟩ := clean.accounted.ahead reader mem live _ produced own.symm
    rw [at_ r held] at past
    exact UInt64.lt_irrefl _ past
  · exact settles.2.2 k mem own

theorem Clean.forgets (clean : Clean cfg s) (settles : Settles cfg s action)
    (move : Move cfg s action s') : Forgets s action ∧ ClearsFirst s action := by
  constructor
  · rintro id index cipher rfl k own
    cases move with
    | retried failed known =>
        obtain ⟨-, forgotten⟩ := clean.cleared failed settles
        exact ⟨fun mem => settles.2.1 k mem own, fun mem => forgotten k mem own⟩
  · rintro id index cipher rfl
    cases move with
    | retried failed known => exact (clean.cleared failed settles).1

/-! ## Steps -/

theorem Clean.not_failed (clean : Clean cfg s)
    (unended : ∀ first w, s.attempts id ≠ .ended first w) : id ∉ s.failures := by
  intro mem
  obtain ⟨first, w, here, -⟩ := clean.failed.2 id mem
  exact unended first w here

/-- The ids that have failed keep their attempts when the one of another id changes. -/
theorem Clean.failed_setAttempt (clean : Clean cfg s) {failures : List UInt32}
    (sublist : failures.Sublist s.failures) (absent : id ∉ failures) (attempt : Attempt) :
    failures.Nodup ∧ ∀ other ∈ failures, ∃ first w,
      (s.setAttempt id attempt).attempts other = .ended first w ∧ w.position = cfg.size other := by
  refine ⟨clean.failed.1.sublist sublist, fun other mem => ?_⟩
  obtain ⟨first, w, here, complete⟩ := clean.failed.2 other (sublist.subset mem)
  have apart : other ≠ id := by
    rintro rfl
    exact absent mem
  exact ⟨first, w, by rw [setAttempt_ne _ apart]; exact here, complete⟩

theorem Clean.failed_move (clean : Clean cfg s) (move : Move cfg s action s') :
    s'.failures.Nodup ∧ ∀ id ∈ s'.failures, ∃ first w,
      s'.attempts id = .ended first w ∧ w.position = cfg.size id := by
  cases move with
  | @started id index cipher fresh =>
      refine clean.failed_setAttempt (List.Sublist.refl _) (clean.not_failed ?_) _
      rw [clean.carried.unstarted id fresh]
      nofun
  | retried failed known =>
      exact clean.failed_setAttempt List.erase_sublist clean.failed.1.not_mem_erase _
  | opened here | handled mem frame here more =>
      exact clean.failed_setAttempt (List.Sublist.refl _)
        (clean.not_failed (by rw [here]; nofun)) _
  | failed here =>
      exact clean.failed_setAttempt (List.Sublist.refl _)
        (clean.not_failed (by rw [here]; nofun)) _
  | @mismatched id first w here complete =>
      have unfailed : id ∉ s.failures := clean.not_failed (by rw [here]; nofun)
      obtain ⟨once, ended⟩ :=
        clean.failed_setAttempt (List.Sublist.refl _) unfailed (.ended first w)
      refine ⟨List.nodup_append.mpr ⟨once, List.nodup_singleton _, ?_⟩, ?_⟩
      · rintro other mem _ new rfl
        exact unfailed (List.mem_singleton.mp new ▸ mem)
      · intro other mem
        rcases List.mem_append.mp mem with mem | new
        · exact ended other mem
        · obtain rfl := List.mem_singleton.mp new
          exact ⟨first, w, setAttempt_self _ _ _, complete⟩
  | flowed | ignored | confirmed => exact clean.failed

/-- A step of the sender's tasks keeps what is owed. -/
theorem Clean.owed_flow (clean : Clean cfg s) {flow : Flow.State} {step : Flow.Action}
    (once : step.startsOnce = true) (move : Flow.Move cfg.flow s.flow step flow)
    (settles : ∀ k, step = .confirm k → Settles cfg s (.confirm k)) :
    ∀ k ∈ flow.lost, k ∈ flow.produced ∧ k ∉ flow.retired := by
  intro k mem
  cases Flow.effect_of_move once move with
  | kept produced lost retired =>
      rw [lost] at mem
      obtain ⟨there, unretired⟩ := clean.owed k mem
      exact ⟨produced there, by rwa [retired]⟩
  | @confirmed key confirms cached produced lost retired =>
      rw [lost] at mem
      obtain ⟨there, unretired⟩ := clean.owed k mem
      refine ⟨by rwa [produced], ?_⟩
      rw [retired, List.mem_append, List.mem_singleton]
      rintro (mem' | rfl)
      · exact unretired mem'
      · exact (settles k confirms).1 cached mem
  | @lost key confirms absent produced lost retired =>
      rw [produced, retired]
      rw [lost, Finset.mem_insert] at mem
      rcases mem with rfl | mem
      · have outstanding : 0 < Flow.copies k s.flow := (settles k confirms).2 absent
        refine ⟨(Flow.mem_produced_iff clean.accounted).mpr (.inl outstanding), fun mem => ?_⟩
        have gone := copies_of_retired clean.accounted mem
        omega
      · exact clean.owed k mem
  | @late key mem' produced lost retired =>
      rw [lost, Finset.mem_erase] at mem
      obtain ⟨there, unretired⟩ := clean.owed k mem.2
      refine ⟨by rwa [produced], ?_⟩
      rw [retired, List.mem_append, List.mem_singleton]
      rintro (mem' | same)
      · exact unretired mem'
      · exact mem.1 same

theorem Clean.owed_move (clean : Clean cfg s) (settles : Settles cfg s action)
    (move : Move cfg s action s') :
    ∀ k ∈ s'.flow.lost, k ∈ s'.flow.produced ∧ k ∉ s'.flow.retired := by
  cases move with
  | @retried id index cipher failed known =>
      intro k mem
      obtain ⟨produced, unretired⟩ := clean.owed k mem
      have apart := (clean.cleared failed settles).2 k mem
      exact ⟨List.mem_filter.mpr ⟨produced, decide_eq_true apart⟩,
        fun retired => unretired (List.mem_of_mem_filter retired)⟩
  | @flowed action flow own move =>
      refine clean.owed_flow ?_ move ?_
      · cases action <;> first | rfl | cases own
      · rintro k rfl
        cases own
  | @confirmed key flow mem move =>
      apply clean.owed_flow rfl move
      rintro k ⟨⟩
      exact settles
  | started | opened | handled | ignored | mismatched | failed => exact clean.owed

theorem clean_move (clean : Clean cfg s) (settles : Settles cfg s action)
    (move : Move cfg s action s') : Clean cfg s' := by
  obtain ⟨forgets, clears⟩ := clean.forgets settles move
  have tracked := tracked_move clean.tracked clean.accounted clears move
  exact ⟨accounted_move clean.accounted clears move, carried_move clean.carried forgets move,
    settled_move clean.settled move, clean.owed_move settles move, tracked.readers, tracked.chunks,
    tracked.told, clean.failed_move move⟩

/-! ## Runs -/

/-- The late confirmations are those that count as lost. -/
theorem lateAfter_eq {t : Timed} (same : t.late = t.state.flow.lost)
    (next : step cfg t.state action = some s') : t.lateAfter action = s'.flow.lost := by
  cases step_cases next with
  | started | retried | opened | handled | ignored | mismatched | failed => exact same
  | @flowed action flow own move =>
      cases move with
      | requeued found unconfirmed =>
          have cached := AList.lookup_isSome.mp (Option.isSome_of_eq_some found)
          rw [Timed.lateAfter, if_pos cached, same]
          exact Finset.erase_eq_of_notMem unconfirmed
      | late cached lost =>
          rw [Timed.lateAfter, if_pos cached, same]
          rfl
      | gone absent =>
          rw [Timed.lateAfter, if_neg absent]
          exact same
      | ended here pc stops => rcases stops with rfl | ⟨rfl, -⟩ <;> exact same
      | started | restarted | confirmed | lost => cases own
      | _ => exact same
  | confirmed mem move =>
      cases move with
      | confirmed cached =>
          rw [Timed.lateAfter, if_pos cached]
          exact same
      | lost absent =>
          rw [Timed.lateAfter, if_neg absent, same]
          rfl
      | ended here pc stops => rcases stops with stops | ⟨stops, -⟩ <;> cases stops

theorem clean_reached {t : Timed} (reached : (timed cfg).ReachableVia (InTime cfg) t) :
    Clean cfg t.state ∧ t.late = t.state.flow.lost := by
  refine @Machine.ReachableVia.invariant _ _ _ _
    (fun t => Clean cfg t.state ∧ t.late = t.state.flow.lost) ?_ ?_ _ reached
  · rintro _ rfl
    exact ⟨clean_init, rfl⟩
  · rintro t action _ - ⟨clean, same⟩ inTime next
    obtain ⟨s', stepped, rfl⟩ := Option.map_eq_some_iff.mp next
    have settles : Settles cfg t.state action := by
      rw [Settles, ← same]
      exact inTime
    exact ⟨clean_move clean settles (step_cases stepped), lateAfter_eq same stepped⟩

/-- The writer of the only chunk finds a wrong hash before its confirmation was processed. -/
def mismatchedEarly : List Action := sentOnce ++ [.mismatch 0]

/-- The second attempt sends its chunk in vain, and the confirmation of the first one
arrives. -/
def confirmedLate : List Action :=
  mismatchedEarly ++
    [.retry 0 0 ⟨fun _ => 0, 0, none⟩, .open_ 0, .sender (.open_ 1), .sender (.acquireRead 1),
      .sender (.readChunk 1), .sender (.forget 1), .sender .addPermit, .sender (.acquireSend 0),
      .sender (.receive 0), .sender (.send 0), .sender (.cacheJob 0), .confirm (0, 0)]

/-- As `oneChunk`, with two permits. -/
def twoPermits : Config := { oneChunk with flow := ⟨2, 1, 5⟩ }

/-- The confirmation of the only chunk comes before its job is in the cache, and the job times
out there before its file is retried. -/
def settledLate : List Action :=
  [.start 0 0 ⟨fun _ => 0, 0, none⟩, .open_ 0, .sender (.open_ 0), .sender (.acquireRead 0),
    .sender (.readChunk 0), .sender (.forget 0), .sender .addPermit, .sender (.acquireSend 0),
    .sender (.receive 0), .sender (.send 0), .deliver 0, .confirm (0, 0), .sender (.cacheJob 0),
    .sender (.timeout (0, 0)), .mismatch 0]

end Transfer

end Cccp
