import Cccp.Control.Model
import Cccp.Lib.Collections
import Cccp.Receiver.Outcome

/-!
# Malformed keys in a manifest

The lengths of a key and an iv are checked where they are read from the command line, and
nowhere else.  A manifest brings them from the other side, and `make_cipher` slices them in
the task of the writer, which dies if they are too short.

`malformed_key_reported_iff` says for which entries of a manifest the task survives
`make_cipher` and every failure of it is reported.
-/

namespace Cccp

/-! ## What is started -/

/-- The writer is given the key of its file's entry in the manifest. -/
theorem crypto_of_prepared {options : ReceiverOptions} {disk : DiskView} {manifest : Manifest}
    {files : List FileDetails} {id : UInt32} {detail : FileDetail} {details : FileDetails}
    (prepared : preparedFiles options disk manifest = some files)
    (listed : manifest.files.lookup id = some detail)
    (found : (fileMap files).lookup id = some details) : details.crypto = detail.crypto := by
  obtain ⟨there, named⟩ := mem_of_lookup_fileMap found
  obtain ⟨file, kept, made⟩ := exists_of_mem_mapM prepared there
  obtain ⟨partialPath, -, rfl⟩ := Option.map_eq_some_iff.mp made
  obtain ⟨entry, mem, chosen⟩ := List.mem_filterMap.mp kept
  have same : file.1 = entry.1 ∧ file.2.1 = entry.2 := by
    dsimp only at chosen
    split at chosen
    next => cases chosen
    next =>
      cases chosen
      exact ⟨rfl, rfl⟩
  have entered : manifest.files.lookup entry.1 = some entry.2 := AList.mem_lookup_iff.mpr mem
  rw [same.1.symm.trans named, listed] at entered
  cases entered
  exact congrArg FileDetail.crypto same.2

theorem crypto_restarted (now : FileSystem Path) (details : FileDetails) :
    (Control.restarted now details).crypto = details.crypto := by
  unfold Control.restarted
  split <;> rfl

/-! ## What becomes of the task -/

namespace Attempted

variable {crates : Crates} {details : FileDetails} {s s' : Attempted}

/-- The operations of a task that has no cipher. -/
def WithoutCipher : Phase → Prop
  | .opening | .seeking _ | .failing false _ | .finished (.failed false) => True
  | _ => False

theorem withoutCipher_reached
    (unknown : details.crypto.makeCipher crates.cipher = .unknownEnumValue)
    (reached : (machine crates details).ReachableVia Open s) : WithoutCipher s.task.phase := by
  induction reached with
  | init start =>
      rw [start.1]
      trivial
  | @step s s' event before open_ next ih =>
      cases event with
      | others after =>
          cases next
          exact ih
      | own action =>
          obtain ⟨after, stepped, rfl⟩ := Option.map_eq_some_iff.mp next
          have same := details_reached before
          have move := WriterTask.step_cases stepped
          obtain ⟨shared', task'⟩ := after
          cases move with
          | opened phase _ => trivial
          | seeked phase made _ | seekPanicked phase made _ | keyPanicked phase made =>
              rw [same, unknown] at made
              cases made
          | sendPanicked phase closed => cases open_.symm.trans closed
          | failed error phase => trivial
          | writeFailed phase _ error => trivial
          | @reported signature error phase _ =>
              rw [phase] at ih
              cases signature with
              | false => trivial
              | true => exact ih.elim
          | subscribed phase _ | received phase _ _ _ _ | keystreamPanicked phase _ _ _ _ _
          | flushed phase _ | popped phase
          | verified phase _ _ | mismatched phase _ _ | notified phase _ | removed phase _
          | unremoved phase | moved phase _ | ended phase _ =>
              rw [phase] at ih
              exact ih.elim

/-- A key that cannot be sliced kills the task behind the open file. -/
theorem panicked_reachable (short : ¬ details.crypto.Sliceable) :
    ∃ s, (machine crates details).ReachableVia Open s ∧ s.task.phase = .panicked := by
  have made := (@Crypto.makeCipher_panicked_iff crates.cipher _).mpr short
  let opened : Shared :=
    (first details).shared.setDisk (((first details).shared.disk.openAppend
      details.partialPath).get rfl).2
  have opening : (machine crates details).step (first details) (.own .proceed) =
      some ((first details).record (opened, ⟨details, .seeking 0⟩)) := rfl
  have seeking : WriterTask.step crates opened ⟨details, .seeking 0⟩ .proceed =
      some (opened, ⟨details, .panicked⟩) := by
    simp only [WriterTask.step, WriterTask.proceed, made]
    rfl
  have dying : (machine crates details).step
      ((first details).record (opened, ⟨details, .seeking 0⟩)) (.own .proceed) =
        some (((first details).record (opened, ⟨details, .seeking 0⟩)).record
          (opened, ⟨details, .panicked⟩)) :=
    congrArg (Option.map _) seeking
  have start : (machine crates details).init (first details) := ⟨rfl, rfl, rfl, rfl⟩
  refine ⟨_, .step (.step (.init start) ?_ opening) ?_ dying, rfl⟩
  · exact rfl
  · exact rfl

end Attempted

/-- `make_cipher` returns, nothing but the end of a keystream kills the writer task, and if
`make_cipher` fails the task goes on until it has told the sender so. -/
structure KeyReported (crates : Crates) (details : FileDetails) : Prop where
  returns : details.crypto.makeCipher crates.cipher ≠ .panicked
  survives : details.crypto.Lasts crates.cipher details.startIndex details.size →
    ∀ s, (Attempted.machine crates details).ReachableVia Attempted.Open s →
      s.task.phase ≠ .panicked
  continues : (∀ cipher, details.crypto.makeCipher crates.cipher ≠ .made cipher) →
    ∀ s, (Attempted.machine crates details).ReachableVia Attempted.Open s →
      ¬ Attempted.Ended s.task.phase → s.shared.closed = false →
      ∃ action, ((Attempted.machine crates details).step s (.own action)).isSome = true
  reported : (∀ cipher, details.crypto.makeCipher crates.cipher ≠ .made cipher) →
    ∀ s, (Attempted.machine crates details).ReachableVia Attempted.Open s →
      Attempted.Ended s.task.phase → ∃ error, s.sent = [.failure details.id 2 (some error)]

open Attempted in
theorem keyReported_iff {crates : Crates} {details : FileDetails} :
    KeyReported crates details ↔ details.crypto.Sliceable := by
  constructor
  · intro reported
    by_contra short
    exact reported.returns (Crypto.makeCipher_panicked_iff.mpr short)
  · intro sliceable
    have returns : details.crypto.makeCipher crates.cipher ≠ .panicked := fun made =>
      Crypto.makeCipher_panicked_iff.mp made sliceable
    have early : (∀ cipher, details.crypto.makeCipher crates.cipher ≠ .made cipher) →
        ∀ s, (machine crates details).ReachableVia Open s → WithoutCipher s.task.phase := by
      intro unmade s reached
      apply withoutCipher_reached ?_ reached
      cases made : details.crypto.makeCipher crates.cipher with
      | made cipher => exact absurd made (unmade cipher)
      | unknownEnumValue => rfl
      | panicked => exact absurd made returns
    refine ⟨returns, fun lasts s => not_panicked sliceable lasts, ?_, ?_⟩
    · intro unmade s reached running open_
      have phase := early unmade s reached
      cases here : s.task.phase with
      | opening | seeking =>
          refine ⟨.fail 0 [], ?_⟩
          simp only [machine, WriterTask.step, WriterTask.fail, here]
          rfl
      | failing signature error =>
          refine ⟨.proceed, ?_⟩
          simp only [machine, WriterTask.step, WriterTask.proceed, here, open_]
          rfl
      | finished outcome =>
          rw [here] at running
          exact absurd trivial running
      | _ =>
          rw [here] at phase
          exact phase.elim
    · intro unmade s reached ended
      have phase := early unmade s reached
      have done := (inv_reached reached).done
      have same := details_reached reached
      cases here : s.task.phase with
      | finished outcome =>
          rw [here] at phase done
          cases outcome with
          | renamed => exact phase.elim
          | failed signature =>
              cases signature with
              | true => exact phase.elim
              | false =>
                  obtain ⟨error, sent, -⟩ := done
                  rw [WriterTask.id, same] at sent
                  exact ⟨error, sent⟩
      | panicked =>
          rw [here] at phase
          exact phase.elim
      | _ =>
          rw [here] at ended
          exact ended.elim

/-- A manifest of one file with some encryption details. -/
def keyManifest (crypto : Crypto) : Manifest where
  directories := []
  files := AList.singleton 0 { plainDetail [97] with size := 1024, crypto := crypto }

/-- What the receiver prepares for it in an empty directory. -/
def keyDetails (crypto : Crypto) : FileDetails where
  id := 0
  path := [.normal [100], .normal [97]]
  partialPath := [.normal [100], .normal ([97] ++ partialSuffix)]
  size := 1024
  startIndex := 0
  signature := none
  crypto := crypto

theorem preparedFiles_keyManifest (crypto : Crypto) :
    preparedFiles emptyDestination (fun _ => none) (keyManifest crypto) =
      some [keyDetails crypto] := by
  rfl

/-- `CHACHA20` without a key. -/
def keyless : Crypto := ⟨4, [], []⟩

def noDisk : FileSystem Path := (Attempted.first (keyDetails keyless)).shared.disk

end Cccp
