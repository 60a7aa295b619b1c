import Cccp.Reassembly
import Cccp.Transfer.Model

/-!
# No chunk is lost

A job leaves the sender's memory for good only on a confirmation, and every confirmation
was sent by a writer that has taken the chunk.  `Carried` follows a confirmation from the
writer through the stream and the set of lost confirmations to the permit it gives back;
every step keeps it, provided a new attempt finds no confirmation of an earlier one
(`Forgets`).
-/

namespace Cccp

namespace Transfer

/-! ## Confirmed and accepted chunks -/

/-- The writer of the latest attempt has confirmed the chunk. -/
def Told (s : State) (k : ChunkKey) : Prop :=
  ∃ w, (s.attempts k.1).writer? = some w ∧ k.2 ∈ w.confirmed

/-- The writer of the latest attempt has written the chunk, or keeps it. -/
def Accepted (cfg : Config) (s : State) (k : ChunkKey) : Prop :=
  ∃ w, (s.attempts k.1).writer? = some w ∧ w.Taken (cfg.size k.1) k.2

/-- The frame names a position of its file. -/
def Framed (cfg : Config) (data : Bytes) : Prop :=
  (Receiver.decodeFrame data).2.index.toNat <
    (cfg.source (Receiver.decodeFrame data).1).contents.length

/-- What is confirmed was taken, and what is retired was confirmed. -/
structure Carried (cfg : Config) (s : State) : Prop where
  honest : ∀ id w, (s.attempts id).writer? = some w → w.Honest (cfg.size id)
  jobs : Flow.Each (fun job => Framed cfg job.data) s.flow
  framed : ∀ datagram ∈ s.network, Framed cfg datagram
  readers : ∀ reader ∈ s.flow.readers, ∃ first, reader.From (cfg.source reader.id) first
  told : ∀ k, k ∈ s.confirmations ∨ k ∈ s.flow.lost ∨ k ∈ s.flow.retired → Told s k
  unstarted : ∀ id, id ∉ s.flow.started → s.attempts id = .unstarted

variable {cfg : Config} {s s' : State} {action : Action} {k : ChunkKey} {id : UInt32}

theorem Carried.accepted (carried : Carried cfg s) (told : Told s k) : Accepted cfg s k := by
  obtain ⟨w, writes, confirmed⟩ := told
  exact ⟨w, writes, (carried.honest k.1 w writes).taken k.2 confirmed⟩

theorem carried_init : Carried cfg (initial cfg) where
  honest := nofun
  jobs := Flow.each_init
  framed := nofun
  readers := nofun
  told k listed := by
    rcases listed with mem | mem | mem <;> cases mem
  unstarted _ _ := rfl

/-! ## Changing an attempt -/

/-- The writer of an attempt goes on. -/
theorem Told.setAttempt (told : Told s k) {attempt : Attempt}
    (keeps : ∀ w, (s.attempts id).writer? = some w →
      ∃ w', attempt.writer? = some w' ∧ w.confirmed ⊆ w'.confirmed) :
    Told (s.setAttempt id attempt) k := by
  obtain ⟨w, writes, confirmed⟩ := told
  by_cases own : k.1 = id
  · subst own
    obtain ⟨w', writes', more⟩ := keeps w writes
    exact ⟨w', by rw [setAttempt_self]; exact writes', more confirmed⟩
  · exact ⟨w, by rw [setAttempt_ne s own]; exact writes, confirmed⟩

theorem Told.setAttempt_ne (told : Told s k) (apart : k.1 ≠ id) (attempt : Attempt) :
    Told (s.setAttempt id attempt) k := by
  obtain ⟨w, writes, confirmed⟩ := told
  exact ⟨w, by rw [Transfer.setAttempt_ne s apart]; exact writes, confirmed⟩

theorem honest_setAttempt (honest : ∀ id w, (s.attempts id).writer? = some w → w.Honest (cfg.size id))
    {attempt : Attempt} (new : ∀ w, attempt.writer? = some w → w.Honest (cfg.size id)) :
    ∀ other w, ((s.setAttempt id attempt).attempts other).writer? = some w →
      w.Honest (cfg.size other) := by
  intro other w writes
  by_cases own : other = id
  · subst own
    rw [setAttempt_self] at writes
    exact new w writes
  · rw [Transfer.setAttempt_ne s own] at writes
    exact honest other w writes

theorem unstarted_setAttempt (unstarted : ∀ id, id ∉ s.flow.started → s.attempts id = .unstarted)
    (here : s.attempts id ≠ .unstarted) (attempt : Attempt) :
    ∀ other, other ∉ s.flow.started → (s.setAttempt id attempt).attempts other = .unstarted := by
  intro other fresh
  by_cases own : other = id
  · exact absurd (unstarted other fresh) (own ▸ here)
  · rw [Transfer.setAttempt_ne s own]
    exact unstarted other fresh

/-! ## Steps of the sender -/

theorem framed_of_made (carried : Carried cfg s) {job : Sender.Job} (made : Flow.Made s.flow job) :
    Framed cfg job.data := by
  obtain ⟨reader, mem, own, -, chunks⟩ := made
  obtain ⟨first, from_⟩ := carried.readers reader mem
  obtain ⟨chunk, keystream, carries⟩ := chunks _ _ from_
  obtain ⟨id_eq, index_eq, -⟩ := carries.decodeFrame job.index.toNat_lt
  rw [Framed, id_eq, index_eq, ← own]
  exact chunk.2.1

/-- What a step puts on the network was a job in memory. -/
theorem each_datagrams {P : Bytes → Prop} (jobs : Flow.Each (fun job => P job.data) s.flow)
    (action : Flow.Action) : ∀ datagram ∈ datagrams s.flow action, P datagram := by
  intro datagram mem
  rw [datagrams.eq_def] at mem
  split at mem
  next task =>
    split at mem
    next job found =>
      obtain ⟨sender, here, holds⟩ := Option.bind_eq_some_iff.mp found
      obtain rfl := List.mem_singleton.mp mem
      exact jobs.held sender (List.mem_of_getElem? here) job holds
    next => cases mem
  next => cases mem

theorem framed_datagrams (jobs : Flow.Each (fun job => Framed cfg job.data) s.flow)
    (action : Flow.Action) : ∀ datagram ∈ datagrams s.flow action, Framed cfg datagram :=
  each_datagrams jobs action

/-- A new attempt begins when no confirmation of an earlier one is left. -/
theorem Carried.restart (carried : Carried cfg s) (flow : Flow.State) (failures : List UInt32)
    (index : UInt64) (cipher : StreamCipher)
    (jobs : Flow.Each (fun job => Framed cfg job.data) flow)
    (readers : flow.readers = s.flow.readers ++ [⟨id, .opening (cfg.source id) index cipher⟩])
    (started : ∀ other, other ∉ flow.started → other ∉ s.flow.started ∧ other ≠ id)
    (listed : ∀ k, k ∈ s.confirmations ∨ k ∈ flow.lost ∨ k ∈ flow.retired →
      k.1 ≠ id ∧ (k ∈ s.confirmations ∨ k ∈ s.flow.lost ∨ k ∈ s.flow.retired)) :
    Carried cfg (({ s with failures := failures }.setFlow flow).setAttempt id
      (.starting index cipher)) where
  honest := honest_setAttempt carried.honest nofun
  jobs := jobs
  framed := carried.framed
  readers := by
    intro reader mem
    rcases List.mem_append.mp (readers ▸ mem) with mem | new
    · exact carried.readers reader mem
    · obtain rfl := List.mem_singleton.mp new
      exact ⟨index, rfl, rfl⟩
  told k mem := by
    obtain ⟨apart, mem⟩ := listed k mem
    exact (carried.told k mem).setAttempt_ne apart _
  unstarted other fresh := by
    obtain ⟨fresh, apart⟩ := started other fresh
    exact (setAttempt_ne _ apart _).trans (carried.unstarted other fresh)

/-- Nothing confirmed is left of the earlier attempt of an id that is started again. -/
def Forgets (s : State) (action : Action) : Prop :=
  ∀ id index cipher, action = .retry id index cipher →
    ∀ k, k.1 = id → k ∉ s.confirmations ∧ k ∉ s.flow.lost

/-! ## Runs -/

theorem carried_move (carried : Carried cfg s) (forgets : Forgets s action)
    (move : Move cfg s action s') : Carried cfg s' := by
  have ⟨honest, jobs, framed, readers, told, unstarted⟩ := carried
  cases move with
  | @started id index cipher fresh =>
      refine carried.restart _ s.failures index cipher
        ⟨jobs.queued, jobs.held, jobs.cached⟩ rfl ?_ ?_
      · intro other absent
        exact ⟨fun mem => absent (List.mem_append_left _ mem),
          fun same => absent (List.mem_append_right _ (List.mem_singleton.mpr same))⟩
      · intro k mem
        refine ⟨?_, mem⟩
        -- nothing of a fresh id was ever confirmed
        rintro rfl
        obtain ⟨w, writes, -⟩ := told k mem
        rw [unstarted k.1 fresh] at writes
        cases writes
  | @retried id index cipher failed known =>
      have clear := forgets id index cipher rfl
      refine carried.restart _ (s.failures.erase id) index cipher
        ⟨jobs.queued, jobs.held, jobs.cached⟩ rfl ?_ ?_
      · intro other absent
        exact ⟨fun mem => absent (List.mem_append_left _ mem),
          fun same => absent (List.mem_append_right _ (List.mem_singleton.mpr same))⟩
      · rintro k (mem | mem | mem)
        · exact ⟨fun own => (clear k own).1 mem, .inl mem⟩
        · exact ⟨fun own => (clear k own).2 mem, .inr (.inl mem)⟩
        · obtain ⟨mem, apart⟩ := List.mem_filter.mp mem
          exact ⟨of_decide_eq_true apart, .inr (.inr mem)⟩
  | @flowed action flow own move =>
      have going : action.starts = false ∧ action.startsOnce = true := by
        cases action <;> first | exact ⟨rfl, rfl⟩ | cases own
      refine ⟨honest, Flow.each_move jobs (fun job => framed_of_made carried) move, ?_, ?_, ?_, ?_⟩
      · intro datagram mem
        rcases List.mem_append.mp mem with mem | new
        · exact framed datagram mem
        · exact framed_datagrams jobs action datagram new
      · intro reader mem
        obtain ⟨old, mem, continues⟩ := Flow.continues_move going.1 move mem
        obtain ⟨first, from_⟩ := readers old mem
        exact ⟨first, continues.from_ _ _ (continues.id ▸ from_)⟩
      · intro k mem
        refine told k (mem.imp_right fun mem => ?_)
        rcases (Flow.effect_of_move going.2 move).listed mem with rfl | mem
        · cases own
        · exact mem
      · intro id fresh
        exact unstarted id fun mem => fresh (Flow.started_subset move mem)
  | @opened id first cipher here =>
      refine ⟨honest_setAttempt honest ?_, jobs, framed, readers, ?_, ?_⟩
      · rintro w ⟨⟩
        exact Writer.honest_start cipher
      · intro k mem
        refine (told k mem).setAttempt fun w writes => ?_
        rw [here] at writes
        cases writes
      · exact unstarted_setAttempt unstarted (by rw [here]; nofun) _
  | @handled index datagram id job first w mem frame here more =>
      have own := honest id w (by rw [here]; rfl)
      have small : job.index.toNat < 2 ^ 63 := by
        have inside := framed datagram mem
        rw [Framed, frame] at inside
        exact Nat.lt_trans inside (cfg.source id).fits
      have continued := @Writer.confirmed_handle (cfg.size id) w job
      refine ⟨honest_setAttempt honest ?_, jobs, framed, readers, ?_, ?_⟩
      · rintro w' ⟨⟩
        exact own.handle small
      · rintro k listed
        have kept : Told s k → Told (s.setAttempt id
            (.running first (w.handle (cfg.size id) job))) k := by
          refine fun told => told.setAttempt fun w' writes => ?_
          rw [here] at writes
          cases writes
          exact ⟨_, rfl, continued.subset⟩
        rcases listed with listed | listed
        · rcases List.mem_append.mp listed with listed | new
          · exact kept (told k (.inl listed))
          · obtain ⟨index, confirmed, rfl⟩ := List.mem_map.mp new
            exact ⟨_, by rw [setAttempt_self]; rfl, List.mem_of_mem_drop confirmed⟩
        · exact kept (told k (.inr listed))
      · exact unstarted_setAttempt unstarted (by rw [here]; nofun) _
  | ignored => exact carried
  | @mismatched id first w here _ | @failed id first w here =>
      refine ⟨honest_setAttempt honest ?_, jobs, framed, readers, ?_, ?_⟩
      · rintro w' ⟨⟩
        exact honest id w (by rw [here]; rfl)
      · intro k mem
        refine (told k mem).setAttempt fun w' writes => ?_
        rw [here] at writes
        cases writes
        exact ⟨w, rfl, List.Subset.refl _⟩
      · exact unstarted_setAttempt unstarted (by rw [here]; nofun) _
  | @confirmed key flow mem move =>
      refine ⟨honest, Flow.each_move jobs (fun job => framed_of_made carried) move, framed, ?_, ?_,
        ?_⟩
      · intro reader mem
        obtain ⟨old, mem, continues⟩ := Flow.continues_move rfl move mem
        obtain ⟨first, from_⟩ := readers old mem
        exact ⟨first, continues.from_ _ _ (continues.id ▸ from_)⟩
      · rintro k (listed | listed)
        · exact told k (.inl (List.mem_of_mem_erase listed))
        · rcases (Flow.effect_of_move rfl move).listed listed with same | listed
          · cases same
            exact told key (.inl mem)
          · exact told k (.inr listed)
      · intro id fresh
        exact unstarted id fun mem => fresh (Flow.started_subset move mem)

theorem carried_reached (reached : (machine cfg).ReachableVia Forgets s) : Carried cfg s := by
  refine reached.invariant ?_ ?_
  · rintro _ rfl
    exact carried_init
  · intro _ _ _ _ carried forgets next
    exact carried_move carried forgets (step_cases next)

/-! ## No confirmation is lost -/

/-- Every confirmation is on its way, or it was recorded. -/
def Settled (s : State) : Prop :=
  ∀ k, Told s k → k ∈ s.confirmations ∨ k ∈ s.flow.lost ∨ k ∈ s.flow.retired

theorem told_of_setAttempt {attempt : Attempt}
    (same : ∀ w', attempt.writer? = some w' → ∀ index ∈ w'.confirmed,
      ∃ w, (s.attempts id).writer? = some w ∧ index ∈ w.confirmed)
    (told : Told (s.setAttempt id attempt) k) : Told s k := by
  obtain ⟨w', writes, confirmed⟩ := told
  by_cases own : k.1 = id
  · rw [own, setAttempt_self] at writes
    obtain ⟨w, writes, confirmed⟩ := same w' writes k.2 confirmed
    exact ⟨w, by rw [own]; exact writes, confirmed⟩
  · rw [setAttempt_ne s own] at writes
    exact ⟨w', writes, confirmed⟩

/-- An attempt whose writer has not started is told nothing. -/
theorem Told.apart {attempt : Attempt} (told : Told (s.setAttempt id attempt) k)
    (unwritten : attempt.writer? = none) : Told s k ∧ k.1 ≠ id := by
  constructor
  · refine told_of_setAttempt (fun w writes => ?_) told
    cases unwritten.symm.trans writes
  · intro own
    obtain ⟨w, writes, -⟩ := told
    rw [own, setAttempt_self] at writes
    cases unwritten.symm.trans writes

theorem settled_move (settled : Settled s) (move : Move cfg s action s') : Settled s' := by
  cases move with
  | started fresh => exact fun k told => settled k (Told.apart told rfl).1
  | @retried id index cipher failed known =>
      intro k told
      obtain ⟨before, apart⟩ := Told.apart told rfl
      refine (settled k before).imp_right (Or.imp_right fun mem => ?_)
      exact List.mem_filter.mpr ⟨mem, decide_eq_true apart⟩
  | @flowed action flow own move =>
      have once := Flow.Action.startsOnce_of_isOwn own
      exact fun k told => (settled k told).imp_right (Flow.effect_of_move once move).keeps
  | opened here =>
      refine fun k told => settled k (told_of_setAttempt (fun w writes index confirmed => ?_) told)
      cases writes
      cases confirmed
  | @handled index datagram id job first w mem frame here more =>
      rintro k ⟨w', writes, confirmed⟩
      by_cases own : k.1 = id
      · rw [own, setAttempt_self] at writes
        cases writes
        obtain ⟨new, grown⟩ := @Writer.confirmed_handle (cfg.size id) w job
        rw [← grown, List.mem_append] at confirmed
        rcases confirmed with confirmed | confirmed
        · refine (settled k ⟨w, by rw [own, here]; rfl, confirmed⟩).imp_left
            (List.mem_append_left _)
        · refine .inl (List.mem_append_right _ (List.mem_map.mpr ⟨k.2, ?_, by rw [← own]⟩))
          rw [← grown, List.drop_left]
          exact confirmed
      · rw [setAttempt_ne _ own] at writes
        exact (settled k ⟨w', writes, confirmed⟩).imp_left (List.mem_append_left _)
  | ignored => exact settled
  | @mismatched id first w here complete =>
      refine fun k told => settled k (told_of_setAttempt (fun w' writes index confirmed => ?_) told)
      cases writes
      exact ⟨w, by rw [here]; rfl, confirmed⟩
  | @failed id first w here =>
      refine fun k told => settled k (told_of_setAttempt (fun w' writes index confirmed => ?_) told)
      cases writes
      exact ⟨w, by rw [here]; rfl, confirmed⟩
  | @confirmed key flow mem move =>
      intro k told
      rcases settled k told with mem | listed
      · by_cases same : k = key
        · subst same
          exact .inr (Flow.recorded_of_confirm move)
        · exact .inl ((List.mem_erase_of_ne same).mpr mem)
      · exact .inr ((Flow.effect_of_move rfl move).keeps listed)

/-! ## Transfers that start every id once -/

/-- The sender's tasks take their own steps. -/
theorem flow_reached
    (reached : (machine cfg).ReachableVia (fun _ action => action.startsOnce = true) s) :
    (Flow.machine cfg.flow).ReachableVia (fun _ action => action.startsOnce = true) s.flow := by
  refine reached.simulate State.flow ?_ ?_
  · rintro _ rfl
    exact rfl
  · intro s action s' _ once next
    have next : step cfg s action = some s' := next
    cases action with
    | start id index cipher =>
        refine .inr ⟨.start id (cfg.source id) index cipher, rfl, ?_⟩
        simp only [step] at next
        split at next
        next => cases next
        next fresh =>
          cases next
          exact if_neg fresh
    | retry => cases once
    | sender action =>
        simp only [step] at next
        split at next
        next own =>
          obtain ⟨flow, found, rfl⟩ := Option.map_eq_some_iff.mp next
          refine .inr ⟨action, ?_, found⟩
          cases action <;> first | rfl | cases own
        next => cases next
    | open_ | deliver | mismatch | writerFails =>
        left
        cases step_cases next <;> rfl
    | confirm key =>
        refine .inr ⟨.confirm key, rfl, ?_⟩
        simp only [step] at next
        split at next
        next =>
          cases next
          rfl
        next => cases next

theorem forgets_of_startsOnce (once : action.startsOnce = true) : Forgets s action := by
  rintro id index cipher rfl
  cases once

/-- **No chunk is lost.**  When every id is started once, a chunk that was queued has one
copy in the sender's memory or none, and its writer has accepted it if there is none; lost
confirmations and those on their way are of accepted chunks. -/
theorem no_chunk_lost
    (reached : (machine cfg).ReachableVia (fun _ action => action.startsOnce = true) s) :
    (∀ k ∈ s.flow.produced, Flow.copies k s.flow ≤ 1 ∧
      (Flow.copies k s.flow = 0 → Accepted cfg s k)) ∧
      (∀ k ∈ s.flow.lost, Accepted cfg s k) ∧ ∀ k ∈ s.confirmations, Accepted cfg s k := by
  have carried : Carried cfg s :=
    carried_reached (reached.mono fun _ _ once => forgets_of_startsOnce once)
  have accounted := Flow.accounted_of_startsOnce (flow_reached reached)
  refine ⟨fun k mem => ⟨accounted.copies_le k, fun gone => ?_⟩, ?_, ?_⟩
  · have retired := ((Flow.mem_produced_iff accounted).mp mem).resolve_left (by omega)
    exact carried.accepted (carried.told k (.inr (.inr retired)))
  · exact fun k mem => carried.accepted (carried.told k (.inr (.inl mem)))
  · exact fun k mem => carried.accepted (carried.told k (.inl mem))

/-- A file of one byte, with one permit and one sender task. -/
def oneChunk : Config := ⟨Flow.onePermit, fun _ => Flow.oneByte, fun _ => 1⟩

/-- The only chunk is sent, and handled by its writer. -/
def sentOnce : List Action :=
  [.start 0 0 ⟨fun _ => 0, 0, none⟩, .open_ 0, .sender (.open_ 0), .sender (.acquireRead 0),
    .sender (.readChunk 0), .sender (.forget 0), .sender .addPermit, .sender (.acquireSend 0),
    .sender (.receive 0), .sender (.send 0), .sender (.cacheJob 0), .deliver 0]

theorem no_chunk_lost_oneChunk : ∃ s,
    (machine oneChunk).ReachableVia (fun _ action => action.startsOnce = true) s ∧
      s.flow.produced = [(0, 0)] ∧ Flow.copies (0, 0) s.flow = 0 ∧ Accepted oneChunk s (0, 0) := by
  obtain ⟨s, reached, gone⟩ := Machine.reachableVia_of_test
    (M := machine oneChunk) rfl (sentOnce ++ [.confirm (0, 0)])
    (fun _ action => action.startsOnce)
    (fun s => decide (s.flow.produced = [(0, 0)] ∧ Flow.copies (0, 0) s.flow = 0))
    (by decide +kernel)
  obtain ⟨produced, gone⟩ := of_decide_eq_true gone
  have mem : (0, 0) ∈ s.flow.produced := produced ▸ List.mem_singleton_self _
  exact ⟨s, reached, produced, gone, ((no_chunk_lost reached).1 _ mem).2 gone⟩

end Transfer

end Cccp
