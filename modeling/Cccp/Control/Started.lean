import Cccp.Control.Delivered

/-!
# What a reader is started with

`start_file_transfer` spawns a reader for the id it was called with, from the index the receiver
has answered with and under the cipher the manifest's parameters make.  The sender keeps the
details of the manifest (`Kept`), and the answer it reads is that of the file it asked for
(`Answered`), so that both ends of an attempt begin at one chunk under one keystream
(`spawned_reader`).
-/

namespace Cccp

namespace Control

/-- The reader for a file, where one has been spawned. -/
def readerOf (cfg : Config) (id : UInt32) (details : FileDetail) (readers : List (UInt32 × UInt64)) :
    Option (UInt32 × UInt64 × StreamCipher) :=
  match details.crypto.makeCipher cfg.crates.cipher, readers with
  | .made cipher, (_, index) :: _ => some (id, index, cipher)
  | _, _ => none

/-- The reader that a step of the sender's controller spawns. -/
def spawned (cfg : Config) (before after : Sender) : Option (UInt32 × UInt64 × StreamCipher) :=
  match before.pc with
  | .starting id details | .retrying id details =>
      readerOf cfg id details (after.readers.drop before.readers.length)
  | _ => none

variable {cfg : Config} {s s' : State Fifo}

/-! ## The details -/

/-- The files the sender has to do with are those of the manifest. -/
structure Kept (manifest : Manifest) (sender : Sender) : Prop where
  files : ∀ id details, sender.files.lookup id = some details →
    manifest.files.lookup id = some details
  active : ∀ id details, sender.active.lookup id = some details →
    manifest.files.lookup id = some details
  asked : ∀ id details, sender.pc = .starting id details ∨ sender.pc = .retrying id details →
    manifest.files.lookup id = some details

theorem lookup_of_foldl_erase {V : Type} {ids : List UInt32} {map : HashMap UInt32 V} {id : UInt32}
    {value : V} (found : (ids.foldl (fun map id => map.erase id) map).lookup id = some value) :
    map.lookup id = some value := by
  induction ids generalizing map with
  | nil => exact found
  | cons first rest ih => exact lookup_of_lookup_erase (ih found)

theorem lookup_of_forget {message : Message} {active : HashMap UInt32 FileDetail} {id : UInt32}
    {details : FileDetail} (found : (forget message active).lookup id = some details) :
    active.lookup id = some details := by
  unfold forget at found
  split at found
  next => exact lookup_of_lookup_erase found
  next =>
    split at found
    next => exact lookup_of_lookup_erase found
    next => exact found
  next => exact found

/-- The sender goes on with fewer files, and has asked for none. -/
theorem Kept.goto (kept : Kept cfg.manifest s.sender) {sender : Sender}
    (files : ∀ id details, sender.files.lookup id = some details →
      s.sender.files.lookup id = some details)
    (active : ∀ id details, sender.active.lookup id = some details →
      s.sender.active.lookup id = some details)
    (idle : sender.pc.awaits = none) : Kept cfg.manifest sender := by
  refine ⟨fun id details found => kept.files id details (files id details found),
    fun id details found => kept.active id details (active id details found),
    fun id details asked => ?_⟩
  rcases asked with pc | pc
  · rw [pc] at idle
    cases idle
  · rw [pc] at idle
    cases idle

theorem kept_sender (kept : Kept cfg.manifest s.sender) (move : SenderMove cfg s s') :
    Kept cfg.manifest s'.sender := by
  cases move with
  | nothing | manifest | allCompleted | full | finish | stopped =>
      exact kept.goto (fun _ _ found => found) (fun _ _ found => found) rfl
  | skip pc =>
      refine kept.goto (fun _ _ found => found) (fun _ _ found => found) ?_
      have idle : s.sender.pc.awaits = none := by
        rw [pc]
        rfl
      exact idle
  | completed pc inbox =>
      refine kept.goto (fun _ _ found => lookup_of_foldl_erase found) (fun _ _ found => found) ?_
      rw [State.setSender, Sender.complete]
      dsimp only
      split <;> rfl
  | start pc found =>
      refine ⟨fun id details found => kept.files id details (lookup_of_lookup_erase found), kept.active,
        fun id details asked => ?_⟩
      rcases asked with asked | asked
      · cases asked
        exact kept.files _ _ found
      · cases asked
  | @started id details index rest pc inbox =>
      refine ⟨kept.files, fun other found look => ?_, fun other found asked => ?_⟩
      · rcases eq_or_ne other id with rfl | differs
        · rw [State.setSender, AList.lookup_insert] at look
          cases look
          exact kept.asked _ _ (.inl pc)
        · exact kept.active other found ((AList.lookup_insert_ne differs).symm.trans look)
      · rcases asked with asked | asked
        · cases asked
        · cases asked
  | told pc inbox settles =>
      exact kept.goto (fun _ _ found => found) (fun _ _ found => lookup_of_forget found)
        (Sender.afterMessage_free _).awaits
  | retry pc inbox found =>
      refine ⟨kept.files, kept.active, fun id details asked => ?_⟩
      rcases asked with asked | asked
      · cases asked
      · cases asked
        exact kept.active _ _ found
  | retried pc inbox =>
      exact kept.goto (fun _ _ found => found) (fun _ _ found => found)
        (Sender.afterMessage_free _).awaits

/-! ## The answers -/

/-- What the sender reads is the start index of the file it has asked for. -/
def Answered (r : Reception) (s : State Fifo) : Prop :=
  ∀ id, s.sender.pc.awaits = some id → ∀ index rest,
    s.chan.toSender = .startIndex index :: rest →
      ∃ details ∈ r.files, details.id = id ∧ details.startIndex = index

variable {r : Reception}

theorem answered_sender (agreed : Agreed r.cfg s) (move : SenderMove r.cfg s s') :
    Answered r s' := by
  have none_ : ∀ {pc : SenderPc}, s.sender.pc = pc → pc.Free → s.chan.toSender = [] := by
    intro pc same free
    have handshake := agreed.handshake
    rw [same, free.handshake] at handshake
    rw [handshake.2]
  intro id awaited index rest inbox
  cases move with
  | start pc found =>
      have inbox : s.chan.toSender = .startIndex index :: rest := inbox
      rw [none_ pc trivial] at inbox
      cases inbox
  | retry pc =>
      have inbox : s.chan.toSender = .startIndex index :: rest := inbox
      rw [none_ pc trivial] at inbox
      cases inbox
  | completed pc =>
      rw [State.setSender, Sender.complete] at awaited
      dsimp only at awaited
      split at awaited
      next => cases awaited
      next => cases awaited
  | told | retried => cases awaited.symm.trans (Sender.afterMessage_free _).awaits
  | nothing | manifest | allCompleted | full | finish | stopped => cases awaited
  | skip pc =>
      have awaited : s.sender.pc.awaits = some id := awaited
      rw [pc] at awaited
      cases awaited
  | started => cases awaited

theorem answered_receiver (answered : Answered r s) (agreed : Agreed r.cfg s)
    (hand : ∀ details, s.receiver.pc.hand = some details → details ∈ r.files)
    (move : ReceiverMove r.cfg s s') : Answered r s' := by
  have early : ∀ {manifest : Manifest}, s.receiver.pc = .preparing manifest →
      s.sender.pc.awaits = none := by
    intro manifest pc
    obtain ⟨waiting, -, -⟩ := Handshake.of_preparing (pc ▸ agreed.handshake)
    rw [waiting]
    rfl
  cases move with
  | @reply details pc =>
      obtain ⟨awaits, chan⟩ := Handshake.of_replying (pc ▸ agreed.handshake)
      intro id awaited index rest inbox
      have inbox : s.chan.toSender ++ [.startIndex details.startIndex] =
        .startIndex index :: rest := inbox
      rw [chan] at inbox
      cases inbox
      exact ⟨details, hand details (by rw [pc]; rfl),
        Option.some.inj (awaits.symm.trans awaited), rfl⟩
  | completed pc | noSpace pc =>
      intro id awaited
      cases (early pc).symm.trans awaited
  | manifest | nothing | setUp | start | unknown | done | push | spawn | unprepared | stopped =>
      exact answered

/-! ## Readers -/

/-- The files to be received have the sizes and the parameters of the manifest. -/
theorem listed_of_prepared {options : ReceiverOptions} {view : DiskView} {manifest : Manifest}
    {files : List FileDetails} {details : FileDetails}
    (prepared : preparedFiles options view manifest = some files) (mem : details ∈ files) :
    ∃ file, manifest.files.lookup details.id = some file ∧ file.crypto = details.crypto ∧
      file.size = details.size := by
  obtain ⟨file, listed, made⟩ := exists_of_mem_mapM prepared mem
  obtain ⟨entry, here, kept⟩ := List.mem_filterMap.mp listed
  obtain ⟨partialPath, -, rfl⟩ := Option.map_eq_some_iff.mp made
  dsimp only at kept
  split at kept
  next => cases kept
  next =>
    cases kept
    exact ⟨entry.2, AList.mem_lookup_iff.mpr here, rfl, rfl⟩

variable {P : PerFile r}

theorem answered_reached (reached : r.machine.ReachableVia P.Allows s) :
    Kept r.cfg.manifest s.sender ∧ Answered r s := by
  refine @Machine.ReachableVia.invariant _ _ _ _
    (fun s => Kept r.cfg.manifest s.sender ∧ Answered r s) ?_ ?_ _ reached
  · rintro s rfl
    refine ⟨⟨fun _ _ found => found, fun _ _ none_ => ?_, fun _ _ asked => ?_⟩,
      fun _ none_ => ?_⟩
    · cases none_
    · rcases asked with asked | asked
      · cases asked
      · cases asked
    · cases none_
  · rintro s action s' reached ⟨kept, answered⟩ - next
    have agreed := agreed_reached (Reception.ideal_of_machine reached).reachable
    have move := @step_cases r.cfg _ _ _ next
    cases move with
    | sender alive move => exact ⟨kept_sender kept move, answered_sender agreed move⟩
    | senderExit => exact ⟨⟨kept.1, kept.2, kept.3⟩, answered⟩
    | receiver alive move =>
        rw [move.sender_eq]
        exact ⟨kept, answered_receiver answered agreed (PerFile.reached reached).1.hand move⟩
    | receiverExit => exact ⟨kept, answered⟩
    | task alive here move => exact ⟨kept, answered⟩

theorem readerOf_cases {asked : UInt32} {details : FileDetail} {readers : List (UInt32 × UInt64)}
    {id : UInt32} {index : UInt64} {cipher : StreamCipher}
    (spawns : readerOf cfg asked details readers = some (id, index, cipher)) :
    asked = id ∧ details.crypto.makeCipher cfg.crates.cipher = .made cipher ∧
      ∃ other rest, readers = (other, index) :: rest := by
  unfold readerOf at spawns
  split at spawns
  next made =>
    cases spawns
    exact ⟨rfl, made, _, _, rfl⟩
  next => cases spawns

theorem spawned_cases {before after : Sender} {id : UInt32} {index : UInt64} {cipher : StreamCipher}
    (spawns : spawned cfg before after = some (id, index, cipher)) :
    ∃ details, (before.pc = .starting id details ∨ before.pc = .retrying id details) ∧
      details.crypto.makeCipher cfg.crates.cipher = .made cipher ∧
      ∃ other rest, after.readers.drop before.readers.length = (other, index) :: rest := by
  unfold spawned at spawns
  split at spawns
  next asked details pc =>
    obtain ⟨rfl, made, more⟩ := readerOf_cases spawns
    exact ⟨details, .inl pc, made, more⟩
  next asked details pc =>
    obtain ⟨rfl, made, more⟩ := readerOf_cases spawns
    exact ⟨details, .inr pc, made, more⟩
  next => cases spawns

/-- A reader is started at the start index of its file, with the cipher of its file. -/
theorem spawned_reader {action : Action} (reached : r.machine.ReachableVia P.Allows s)
    (next : r.machine.step s action = some s') {id : UInt32} {index : UInt64}
    {cipher : StreamCipher} (spawns : spawned r.cfg s.sender s'.sender = some (id, index, cipher)) :
    ∃ details ∈ r.files, details.id = id ∧ details.startIndex = index ∧
      details.crypto.makeCipher r.cfg.crates.cipher = .made cipher := by
  obtain ⟨kept, answered⟩ := answered_reached reached
  obtain ⟨asked, pc, made, other, more, drop⟩ := spawned_cases spawns
  have awaits : s.sender.pc.awaits = some id := by
    rcases pc with pc | pc <;> rw [pc] <;> rfl
  -- what is read is the answer for the file that was asked for
  have answer : ∀ {found : UInt64} {rest : List Packet}, s.chan.toSender = .startIndex found :: rest →
      s'.sender.readers = s.sender.readers ++ [(id, found)] →
      ∃ details ∈ r.files, details.id = id ∧ details.startIndex = index ∧
        details.crypto.makeCipher r.cfg.crates.cipher = .made cipher := by
    intro found rest inbox readers
    rw [readers, List.drop_left] at drop
    cases drop
    obtain ⟨details, mem, own, start⟩ := answered id awaits index rest inbox
    obtain ⟨file, listed, same, -⟩ := listed_of_prepared r.prepared mem
    cases (own ▸ listed).symm.trans (kept.asked id asked pc)
    exact ⟨details, mem, own, start, same ▸ made⟩
  have none_ : s'.sender.readers = s.sender.readers →
      ∃ details ∈ r.files, details.id = id ∧ details.startIndex = index ∧
        details.crypto.makeCipher r.cfg.crates.cipher = .made cipher := by
    intro readers
    rw [readers, List.drop_length] at drop
    cases drop
  cases @step_cases r.cfg _ _ _ next with
  | sender alive move =>
      cases move with
      | @started own details found rest pc' inbox =>
          rw [pc'] at awaits
          cases awaits
          exact answer inbox rfl
      | @retried own details found rest pc' inbox =>
          rw [pc'] at awaits
          cases awaits
          exact answer inbox rfl
      | nothing | manifest | completed | allCompleted | skip | start | full | told | retry | finish
      | stopped => exact none_ rfl
  | senderExit | receiverExit | task => exact none_ rfl
  | receiver alive move => exact none_ (congrArg Sender.readers move.sender_eq)

end Control

end Cccp
