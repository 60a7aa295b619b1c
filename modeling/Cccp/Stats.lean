import Cccp.Items
import Mathlib.Data.List.Infix

/-!
# The stats stream of a remote client

`remoteStatsPrinter` writes each `Stats` message and a newline to stdout;
`commandRunner` takes the remote's stdout as SSH channel messages and decodes
each one, less its last byte, as one `Stats`.  SSH keeps the bytes and their
order, not the boundaries between writes.

`statsDelivered_iff` is the exact account: the runner takes in what was printed
if and only if every channel message carries exactly one printed frame.
-/

namespace Cccp

open Protobuf

/-! ## The `Stats` message -/

structure Stats where
  confirmedPackets : UInt64
  sentPackets : UInt64
  totalData : UInt64
  deriving DecidableEq

def statsCodec : Codec Stats where
  empty := ⟨0, 0, 0⟩
  encode s :=
    [varintField 1 s.confirmedPackets.toNat, varintField 2 s.sentPackets.toNat,
      varintField 3 s.totalData.toNat].flatten
  mergeField tag wire s :=
    match tag with
    | 1 => fun bytes =>
        (mergeVarint wire bytes).map
          fun r => ({ s with confirmedPackets := UInt64.ofNat r.1 }, r.2)
    | 2 => fun bytes =>
        (mergeVarint wire bytes).map
          fun r => ({ s with sentPackets := UInt64.ofNat r.1 }, r.2)
    | 3 => fun bytes =>
        (mergeVarint wire bytes).map
          fun r => ({ s with totalData := UInt64.ofNat r.1 }, r.2)
    | _ => mergeUnknown s wire tag
  shrinks tag wire s := by
    split
    · exact (mergeVarint_shrinks wire).map
        fun v => { s with confirmedPackets := UInt64.ofNat v }
    · exact (mergeVarint_shrinks wire).map fun v => { s with sentPackets := UInt64.ofNat v }
    · exact (mergeVarint_shrinks wire).map fun v => { s with totalData := UInt64.ofNat v }
    · exact mergeUnknown_shrinks s wire tag

/-- What `remote_stats_printer` writes for one message: the message and a newline. -/
def statsFrame (s : Stats) : Bytes :=
  statsCodec.encode s ++ [10]

/-- All bytes `remote_stats_printer` writes for a sequence of messages. -/
def remoteStatsPrinter (stats : List Stats) : Bytes :=
  (stats.map statsFrame).flatten

/-! ## The runner -/

/-- `russh::ChannelMsg`, as far as `command_runner` tells its cases apart. -/
inductive ChannelMsg where
  | data (data : Bytes)
  | extendedData (data : Bytes) (ext : UInt32)
  | exitStatus (status : UInt32)
  | other

inductive RunnerError where
  | decode
  | commandNotFound
  | noExitStatus
  deriving DecidableEq

/-- How far `command_runner` has come: still in its loop, dead by a panic, or
returned. -/
inductive RunnerOutcome where
  | running
  | panicked
  | failed (error : RunnerError)
  | exited (status : UInt32)
  deriving DecidableEq

/-- Which of the caller's counters `command_runner` was given. -/
structure Counters where
  sentPackets : Bool
  confirmedPackets : Bool
  totalData : Bool

/-- What one data message stores into the counters that are there. -/
structure Stored where
  sentPackets : Option UInt64
  confirmedPackets : Option UInt64
  totalData : Option UInt64
  deriving DecidableEq

def Counters.store (counters : Counters) (s : Stats) : Stored where
  sentPackets := if counters.sentPackets then some s.sentPackets else none
  confirmedPackets := if counters.confirmedPackets then some s.confirmedPackets else none
  totalData := if counters.totalData then some s.totalData else none

structure Runner where
  stored : List Stored
  outcome : RunnerOutcome
  deriving DecidableEq

/-- `str::contains` on byte strings. -/
def containsBytes (pattern : Bytes) : Bytes → Bool
  | [] => pattern.isEmpty
  | byte :: rest => pattern.isPrefixOf (byte :: rest) || containsBytes pattern rest

/-- The complaint of `cmd.exe` about an unknown command. -/
def notRecognized : Bytes :=
  "not recognized as an internal or external command".toUTF8.toList

/-- `&data[..data.len() - 1]`: the subtraction underflows on an empty message, and
the slice panics. -/
def dropNewline (data : Bytes) : Option Bytes :=
  if data = [] then none else some data.dropLast

/-- One message taken from the channel. -/
def Runner.take (counters : Counters) (runner : Runner) : ChannelMsg → Runner
  | .data data =>
      match dropNewline data with
      | none => { runner with outcome := .panicked }
      | some body =>
          match statsCodec.decode body with
          | none => { runner with outcome := .failed .decode }
          | some s => { runner with stored := runner.stored ++ [counters.store s] }
  | .extendedData data ext =>
      -- stderr; newlines are removed before the text is searched
      if ext = 1 ∧ containsBytes notRecognized (data.filter (· ≠ 10)) then
        { runner with outcome := .failed .commandNotFound }
      else runner
  | .exitStatus status =>
      if status = 127 then { runner with outcome := .failed .commandNotFound }
      else { runner with outcome := .exited status }
  | .other => runner

/-- The loop of `command_runner` over the messages of the channel. -/
def commandRunnerFrom (counters : Counters) (runner : Runner) : List ChannelMsg → Runner
  | [] => runner
  | message :: rest =>
      match runner.outcome with
      | .running => commandRunnerFrom counters (runner.take counters message) rest
      | _ => runner

def commandRunner (counters : Counters) (messages : List ChannelMsg) : Runner :=
  commandRunnerFrom counters ⟨[], .running⟩ messages

/-! ## Decoding one data message -/

/-- The runner takes `s` from the data message `data`. -/
def Takes (data : Bytes) (s : Stats) : Prop :=
  data ≠ [] ∧ statsCodec.decode data.dropLast = some s

instance (data : Bytes) (s : Stats) : Decidable (Takes data s) :=
  inferInstanceAs (Decidable (_ ∧ _))

theorem Runner.take_data_of_takes {counters : Counters} {runner : Runner} {data : Bytes}
    {s : Stats} (takes : Takes data s) :
    runner.take counters (.data data) =
      { runner with stored := runner.stored ++ [counters.store s] } := by
  rw [Runner.take, dropNewline, if_neg takes.1]
  simp only [takes.2]

/-- A data message either yields a `Stats` or ends the loop. -/
theorem Runner.take_data_cases (counters : Counters) (runner : Runner) (data : Bytes) :
    (∃ s, Takes data s) ∨
      (runner.take counters (.data data)).outcome = .panicked ∨
      (runner.take counters (.data data)).outcome = .failed .decode := by
  by_cases empty : data = []
  · right; left
    rw [Runner.take, dropNewline, if_pos empty]
  · cases decoded : statsCodec.decode data.dropLast with
    | some s => exact .inl ⟨s, empty, decoded⟩
    | none =>
        right; right
        rw [Runner.take, dropNewline, if_neg empty]
        simp only [decoded]

theorem commandRunnerFrom_of_ended {counters : Counters} {runner : Runner}
    (ended : runner.outcome ≠ .running) (messages : List ChannelMsg) :
    commandRunnerFrom counters runner messages = runner := by
  cases messages with
  | nil => rfl
  | cons message rest =>
      unfold commandRunnerFrom
      split
      next running => exact absurd running ended
      next => rfl

theorem commandRunnerFrom_cons {counters : Counters} {runner : Runner}
    (running : runner.outcome = .running) (message : ChannelMsg) (rest : List ChannelMsg) :
    commandRunnerFrom counters runner (message :: rest) =
      commandRunnerFrom counters (runner.take counters message) rest := by
  rw [commandRunnerFrom]
  split
  next => rfl
  next ended => exact absurd running ended

/-- The runner stays in its loop on a sequence of data messages exactly when it
takes a `Stats` from each, and then stores these in order. -/
theorem commandRunnerFrom_data (counters : Counters) (segments : List Bytes)
    (runner result : Runner) (running : runner.outcome = .running)
    (still : result.outcome = .running) :
    commandRunnerFrom counters runner (segments.map .data) = result ↔
      ∃ stats, List.Forall₂ Takes segments stats ∧
        result = { runner with stored := runner.stored ++ stats.map counters.store } := by
  induction segments generalizing runner with
  | nil =>
      have same : { runner with stored := runner.stored ++ [] } = runner := by simp
      constructor
      · intro h
        exact ⟨[], .nil, by rw [← h]; exact same.symm⟩
      · rintro ⟨stats, takes, h⟩
        cases takes
        rw [h]
        exact same.symm
  | cons data rest ih =>
      rw [List.map_cons, commandRunnerFrom_cons running]
      rcases runner.take_data_cases counters data with ⟨s, takes⟩ | dead
      · rw [Runner.take_data_of_takes takes,
          ih { runner with stored := runner.stored ++ [counters.store s] } running]
        constructor
        · rintro ⟨stats, more, h⟩
          exact ⟨s :: stats, .cons takes more, by simpa using h⟩
        · rintro ⟨stats, more, h⟩
          cases more with
          | @cons _ s' _ stats' takes' more =>
              obtain rfl : s = s' := Option.some.inj (takes.2.symm.trans takes'.2)
              exact ⟨stats', more, by simpa using h⟩
      · have ended : (runner.take counters (.data data)).outcome ≠ .running := by
          rcases dead with dead | dead <;> rw [dead] <;> decide
        rw [commandRunnerFrom_of_ended ended]
        constructor
        · intro h
          exact absurd (h ▸ still) ended
        · rintro ⟨stats, more, -⟩
          cases more with
          | cons takes _ =>
              rw [Runner.take_data_of_takes takes] at ended
              exact absurd running ended

/-! ## Decoding frames and pieces of frames -/

theorem statsCodec_decodeFrom_encode (s : Stats) (rest : List Bytes) :
    statsCodec.decodeFrom ⟨0, 0, 0⟩
        (varintField 1 s.confirmedPackets.toNat :: varintField 2 s.sentPackets.toNat ::
          varintField 3 s.totalData.toNat :: rest).flatten =
      statsCodec.decodeFrom s rest.flatten := by
  obtain ⟨confirmed, sent, total⟩ := s
  rw [statsCodec.decodeFrom_varintField
      (f := fun v => (⟨UInt64.ofNat v, 0, 0⟩ : Stats)) (fun _ => rfl)
      (by decide) (by decide) confirmed.toNat_lt,
    statsCodec.decodeFrom_varintField
      (f := fun v => (⟨UInt64.ofNat confirmed.toNat, UInt64.ofNat v, 0⟩ : Stats))
      (fun _ => rfl) (by decide) (by decide) sent.toNat_lt,
    statsCodec.decodeFrom_varintField
      (f := fun v => (⟨UInt64.ofNat confirmed.toNat, UInt64.ofNat sent.toNat,
        UInt64.ofNat v⟩ : Stats))
      (fun _ => rfl) (by decide) (by decide) total.toNat_lt]
  simp only [UInt64.ofNat_toNat]

theorem statsCodec_lawful : statsCodec.Lawful := by
  intro s _
  exact statsCodec_decodeFrom_encode s []

theorem statsFrame_ne_nil (s : Stats) : statsFrame s ≠ [] := by
  simp [statsFrame]

theorem takes_statsFrame (s : Stats) : Takes (statsFrame s) s := by
  refine ⟨statsFrame_ne_nil s, ?_⟩
  rw [statsFrame, List.dropLast_concat]
  exact statsCodec_decodeFrom_encode s []

/-- A newline where a field key is expected is the key of field 1 with the wire type
of a length-delimited field, which field 1 does not have. -/
theorem decodeFrom_newline (s : Stats) (rest : Bytes) :
    statsCodec.decodeFrom s (10 :: rest) = none := by
  have newline : 10 :: rest = encodeKey 1 .lengthDelimited ++ rest := by
    rw [show encodeKey 1 .lengthDelimited = [10] by decide]
    rfl
  rw [newline, statsCodec.decodeFrom_key (by decide) (by decide)]
  rfl

/-- A zero where a field key is expected is tag 0, which no field has. -/
theorem decodeFrom_zero (s : Stats) (rest : Bytes) :
    statsCodec.decodeFrom s (0 :: rest) = none := by
  have key : decodeKey (0 :: rest) = none := by
    simp [decodeKey, decodeVarint, decodeVarintLoop, WireType.ofCode]
  rw [statsCodec.decodeFrom_cons (by simp), key]
  rfl

/-- A message that goes on past the newline of its first frame is rejected. -/
theorem decode_past_newline (s : Stats) (rest : Bytes) :
    statsCodec.decode (statsFrame s ++ rest) = none := by
  have read := statsCodec_decodeFrom_encode s [10 :: rest]
  have same : statsFrame s ++ rest =
      [varintField 1 s.confirmedPackets.toNat, varintField 2 s.sentPackets.toNat,
        varintField 3 s.totalData.toNat, 10 :: rest].flatten := by
    simp [statsFrame, statsCodec]
  rw [Codec.decode, same]
  apply read.trans
  rw [List.flatten_cons, List.flatten_nil, List.append_nil]
  exact decodeFrom_newline s rest

/-! ## Misaligned data messages

A message that stops inside a frame and still decodes leaves only zero fields
behind; from there on every message either takes a default `Stats` or fails, so
one message too many has been taken and the count never recovers. -/

/-- The frame of the default `Stats`. -/
def zeroFrame : Bytes := [8, 0, 16, 0, 24, 0, 10]

theorem statsFrame_zero : statsFrame ⟨0, 0, 0⟩ = zeroFrame := by
  decide

/-- What a decoded proper front of a frame leaves of it. -/
theorem suffix_of_decoded_front {s : Stats} {front back : Bytes}
    (split : statsCodec.encode s = front ++ back) (proper : back ≠ [])
    (decoded : statsCodec.decode front = some s) :
    back ++ [10] <:+ zeroFrame := by
  obtain ⟨confirmed, sent, total⟩ := s
  unfold Codec.decode at decoded
  change (varintField 1 confirmed.toNat :: [varintField 2 sent.toNat,
    varintField 3 total.toNat]).flatten = front ++ back at split
  change statsCodec.decodeFrom ⟨0, 0, 0⟩ front = some ⟨confirmed, sent, total⟩ at decoded
  rcases statsCodec.decodeFrom_front ⟨0, 0, 0⟩
    (f := fun v => (⟨UInt64.ofNat v, 0, 0⟩ : Stats))
    (fun _ => rfl) (by decide) (by decide) confirmed.toNat_lt split with
    rfl | bad | ⟨front₂, rfl, split₂, read₂⟩
  · -- nothing was read: all three fields are zero
    cases decoded
    rw [List.nil_append] at split
    rw [← split]
    decide
  · cases bad.symm.trans decoded
  rw [read₂, UInt64.ofNat_toNat] at decoded
  rcases statsCodec.decodeFrom_front ⟨confirmed, 0, 0⟩
    (f := fun v => (⟨confirmed, UInt64.ofNat v, 0⟩ : Stats))
    (fun _ => rfl) (by decide) (by decide) sent.toNat_lt split₂ with
    rfl | bad | ⟨front₃, rfl, split₃, read₃⟩
  · -- field 1 was read: fields 2 and 3 are zero
    cases decoded
    rw [List.nil_append] at split₂
    rw [← split₂]
    decide
  · cases bad.symm.trans decoded
  rw [read₃, UInt64.ofNat_toNat] at decoded
  rcases statsCodec.decodeFrom_front ⟨confirmed, sent, 0⟩
    (f := fun v => (⟨confirmed, sent, UInt64.ofNat v⟩ : Stats))
    (fun _ => rfl) (by decide) (by decide) total.toNat_lt split₃ with
    rfl | bad | ⟨front₄, rfl, split₄, -⟩
  · -- fields 1 and 2 were read: field 3 is zero
    cases decoded
    rw [List.nil_append] at split₃
    rw [← split₃]
    decide
  · cases bad.symm.trans decoded
  · exact absurd (List.append_eq_nil_iff.mp split₄.symm).2 proper

/-- A piece of the zero frame, cut anywhere, yields a default `Stats` or nothing. -/
theorem takes_piece {piece data rest : Bytes} {s : Stats} (within : piece <:+ zeroFrame)
    (split : piece = data ++ rest) (takes : Takes data s) : s = ⟨0, 0, 0⟩ := by
  have all : ∀ piece ∈ zeroFrame.tails, ∀ data ∈ piece.inits, data ≠ [] →
      statsCodec.decode data.dropLast = none ∨
        statsCodec.decode data.dropLast = some ⟨0, 0, 0⟩ := by
    decide
  rcases all piece ((List.mem_tails _ _).mpr within) data
    ((List.mem_inits _ _).mpr ⟨rest, split.symm⟩) takes.1 with bad | zero
  · cases bad.symm.trans takes.2
  · exact Option.some.inj (takes.2.symm.trans zero)

/-- Nothing that goes on past the end of a piece of the zero frame decodes. -/
theorem decode_past_piece {piece : Bytes} (within : piece <:+ zeroFrame)
    (nonempty : piece ≠ []) (rest : Bytes) : statsCodec.decode (piece ++ rest) = none := by
  have last : statsCodec.decodeFrom ⟨0, 0, 0⟩ [varintField 3 0, 10 :: rest].flatten =
      statsCodec.decodeFrom ⟨0, 0, UInt64.ofNat 0⟩ [10 :: rest].flatten :=
    statsCodec.decodeFrom_varintField (f := fun v => ⟨0, 0, UInt64.ofNat v⟩)
      (fun _ => rfl) (by decide) (by decide) (by decide)
  have middle : statsCodec.decodeFrom ⟨0, 0, 0⟩
      [varintField 2 0, varintField 3 0, 10 :: rest].flatten =
        statsCodec.decodeFrom ⟨0, UInt64.ofNat 0, 0⟩
          [varintField 3 0, 10 :: rest].flatten :=
    statsCodec.decodeFrom_varintField (f := fun v => ⟨0, UInt64.ofNat v, 0⟩)
      (fun _ => rfl) (by decide) (by decide) (by decide)
  have newline : statsCodec.decodeFrom ⟨0, 0, UInt64.ofNat 0⟩ [10 :: rest].flatten = none := by
    simp only [List.flatten_cons, List.flatten_nil, List.append_nil]
    exact decodeFrom_newline _ rest
  have field₂ : varintField 2 0 = [16, 0] := by decide
  have field₃ : varintField 3 0 = [24, 0] := by decide
  simp only [field₂, field₃, List.flatten_cons, List.flatten_nil, List.append_nil,
    List.cons_append, List.nil_append] at last middle newline
  have pieces := (List.mem_tails piece zeroFrame).mpr within
  simp only [zeroFrame, List.tails, List.mem_cons, List.not_mem_nil, or_false] at pieces
  unfold Codec.decode
  change statsCodec.decodeFrom ⟨0, 0, 0⟩ _ = none
  rcases pieces with rfl | rfl | rfl | rfl | rfl | rfl | rfl | rfl
  · have bad := decode_past_newline ⟨0, 0, 0⟩ rest
    rw [statsFrame_zero] at bad
    exact bad
  · exact decodeFrom_zero _ _
  · exact middle.trans (last.trans newline)
  · exact decodeFrom_zero _ _
  · exact last.trans newline
  · exact decodeFrom_zero _ _
  · exact decodeFrom_newline _ _
  · exact absurd rfl nonempty

theorem remoteStatsPrinter_cons (s : Stats) (stats : List Stats) :
    remoteStatsPrinter (s :: stats) = statsFrame s ++ remoteStatsPrinter stats := rfl

/-- Once a message has stopped inside a zero frame, no later message makes up for it:
the messages run out before the printed bytes do. -/
theorem no_recovery {segments : List Bytes} {stats : List Stats} {piece : Bytes}
    (skipped : Nat) (takes : List.Forall₂ Takes segments stats)
    (within : piece <:+ zeroFrame) (nonempty : piece ≠ [])
    (same : segments.flatten =
      piece ++ ((List.replicate skipped zeroFrame).flatten ++ remoteStatsPrinter stats)) :
    False := by
  induction takes generalizing piece skipped with
  | nil =>
      rw [List.flatten_nil] at same
      exact nonempty (List.append_eq_nil_iff.mp same.symm).1
  | @cons data s segments stats takes _ ih =>
      have whole : (List.replicate skipped zeroFrame).flatten ++ (zeroFrame ++
          remoteStatsPrinter stats) = (List.replicate (skipped + 1) zeroFrame).flatten ++
          remoteStatsPrinter stats := by
        rw [List.replicate_succ', List.flatten_append]
        simp
      -- the rest of the piece is nonempty or the next frame, a zero frame, takes its place
      have next : ∀ rest, piece = data ++ rest → segments.flatten = rest ++
          ((List.replicate skipped zeroFrame).flatten ++ remoteStatsPrinter (s :: stats)) →
          False := by
        intro rest split same'
        obtain rfl := takes_piece within split takes
        rw [remoteStatsPrinter_cons, statsFrame_zero, whole] at same'
        by_cases empty : rest = []
        · subst empty
          rw [List.nil_append, List.replicate_succ, List.flatten_cons,
            List.append_assoc] at same'
          exact ih skipped (List.suffix_refl zeroFrame) (by decide) same'
        · have inner : rest <:+ zeroFrame :=
            List.IsSuffix.trans ⟨data, split.symm⟩ within
          exact ih (skipped + 1) inner empty same'
      rw [List.flatten_cons] at same
      rcases List.append_eq_append_iff.mp same with ⟨rest, split, tail⟩ | ⟨beyond, split, tail⟩
      · exact next rest split tail
      · by_cases empty : beyond = []
        · subst empty
          rw [List.append_nil] at split
          exact next [] (by simp [split]) tail.symm
        · have body : data.dropLast = piece ++ beyond.dropLast := by
            rw [split, List.dropLast_append_of_ne_nil empty]
          have bad := decode_past_piece within nonempty beyond.dropLast
          rw [← body] at bad
          cases bad.symm.trans takes.2

/-- What a message that stops inside its frame leaves of it. -/
theorem left_suffix_of_takes {data left : Bytes} {s : Stats} (takes : Takes data s)
    (split : statsFrame s = data ++ left) (proper : left ≠ []) : left <:+ zeroFrame := by
  obtain ⟨back, last, rfl⟩ := (List.eq_nil_or_concat' left).resolve_left proper
  obtain ⟨front, mid, rfl⟩ := (List.eq_nil_or_concat' data).resolve_left takes.1
  rw [statsFrame, ← List.append_assoc] at split
  obtain ⟨body, newline⟩ := List.append_inj' split rfl
  obtain rfl : 10 = last := List.singleton_inj.mp newline
  have decoded := takes.2
  rw [List.dropLast_concat] at decoded
  rw [List.append_assoc, List.singleton_append] at body
  have piece := suffix_of_decoded_front body (List.cons_ne_nil _ _) decoded
  exact List.IsSuffix.trans ⟨[mid], rfl⟩ piece

/-- A sequence of data messages that carries the printed bytes and yields the printed
messages is the sequence of printed frames. -/
theorem segments_eq_of_takes {segments : List Bytes} {stats : List Stats}
    (takes : List.Forall₂ Takes segments stats)
    (same : segments.flatten = remoteStatsPrinter stats) :
    segments = stats.map statsFrame := by
  induction takes with
  | nil => rfl
  | @cons data s segments stats takes rest ih =>
      rw [List.flatten_cons, remoteStatsPrinter_cons] at same
      have aligned : data = statsFrame s → data :: segments = (s :: stats).map statsFrame := by
        rintro rfl
        rw [List.map_cons, ih (List.append_cancel_left same)]
      rcases List.append_eq_append_iff.mp same with ⟨left, split, tail⟩ | ⟨beyond, split, -⟩
      · by_cases empty : left = []
        · exact aligned (by simpa [empty] using split.symm)
        · -- the message stops inside its frame: the newline is still to come
          have within := left_suffix_of_takes takes split empty
          exact (no_recovery 0 rest within empty tail).elim
      · by_cases empty : beyond = []
        · exact aligned (by simpa [empty] using split)
        · have body : data.dropLast = statsFrame s ++ beyond.dropLast := by
            rw [split, List.dropLast_append_of_ne_nil empty]
          have bad := decode_past_newline s beyond.dropLast
          rw [← body] at bad
          cases bad.symm.trans takes.2

theorem takes_frames (stats : List Stats) :
    List.Forall₂ Takes (stats.map statsFrame) stats := by
  induction stats with
  | nil => exact .nil
  | cons s stats ih => exact .cons (takes_statsFrame s) ih

/-! ## The exact condition -/

/-- The runner takes in what was printed: whatever counters it was given, it neither
panics nor returns, and it stores the values of the printed messages, in order. -/
def StatsDelivered (stats : List Stats) (segments : List Bytes) : Prop :=
  ∀ counters, commandRunner counters (segments.map .data) =
    ⟨stats.map counters.store, .running⟩

theorem Counters.store_injective :
    Function.Injective (Counters.store ⟨true, true, true⟩) := by
  rintro ⟨confirmed, sent, total⟩ ⟨confirmed', sent', total'⟩ same
  simp only [Counters.store, if_true, Stored.mk.injEq, Option.some.injEq] at same
  obtain ⟨rfl, rfl, rfl⟩ := same
  rfl

/-- The printed bytes, cut into data messages, are taken in if and only if every
data message carries exactly one printed frame. -/
theorem statsDelivered_iff {stats : List Stats} {segments : List Bytes}
    (printed : segments.flatten = remoteStatsPrinter stats) :
    StatsDelivered stats segments ↔ segments = stats.map statsFrame := by
  constructor
  · intro delivered
    obtain ⟨taken, takes, same⟩ :=
      (commandRunnerFrom_data ⟨true, true, true⟩ segments ⟨[], .running⟩ _ rfl rfl).mp
        (delivered ⟨true, true, true⟩)
    have stored : stats.map (Counters.store ⟨true, true, true⟩) =
        taken.map (Counters.store ⟨true, true, true⟩) := by
      simpa using congrArg Runner.stored same
    obtain rfl : stats = taken := Counters.store_injective.list_map stored
    exact segments_eq_of_takes takes printed
  · rintro rfl counters
    refine (commandRunnerFrom_data counters _ ⟨[], .running⟩ _ rfl rfl).mpr ?_
    exact ⟨stats, takes_frames stats, by simp⟩

/-- Two printed messages, one channel message each. -/
theorem statsDelivered_iff_two_frames :
    StatsDelivered [⟨1, 2, 3⟩, ⟨4, 5, 6⟩] [statsFrame ⟨1, 2, 3⟩, statsFrame ⟨4, 5, 6⟩] ↔
      [statsFrame ⟨1, 2, 3⟩, statsFrame ⟨4, 5, 6⟩] =
        [⟨1, 2, 3⟩, ⟨4, 5, 6⟩].map statsFrame :=
  statsDelivered_iff (by decide)

/-- The same two messages coalesced into one channel message: the runner returns a
decode error and stores nothing. -/
theorem coalesced_frames_fail :
    ∃ (stats : List Stats) (segments : List Bytes),
      segments.flatten = remoteStatsPrinter stats ∧
      commandRunner ⟨true, true, true⟩ (segments.map .data) = ⟨[], .failed .decode⟩ ∧
      ¬ StatsDelivered stats segments := by
  have failed : commandRunner ⟨true, true, true⟩
      ([statsFrame ⟨1, 2, 3⟩ ++ statsFrame ⟨4, 5, 6⟩].map .data) =
        ⟨[], .failed .decode⟩ := by
    decide
  refine ⟨[⟨1, 2, 3⟩, ⟨4, 5, 6⟩], [statsFrame ⟨1, 2, 3⟩ ++ statsFrame ⟨4, 5, 6⟩],
    by decide, failed, ?_⟩
  intro delivered
  cases failed.symm.trans (delivered ⟨true, true, true⟩)

end Cccp
