import Cccp.Reassembly

/-!
# Receiving datagrams

`receiver::receiver` reads datagrams into one buffer, slices the buffer into a job and hands
the job to the queue of its id.  Of the length it was told it only asks whether there is any:
behind a shorter datagram the buffer holds what was there before.

`unmixed_iff`: what is handed on are the complete datagrams exactly if no shorter one is
received.
-/

namespace Cccp

namespace Receiver

/-! ## The loop -/

/-- What `socket.recv` within its timeout comes to. -/
inductive SocketEvent where
  | datagram (bytes : Bytes)
  | error
  | timeout

/-- The counter of retries after an event; a datagram without bytes leaves it. -/
def SocketEvent.retries (retries : Nat) : SocketEvent → Nat
  | .datagram bytes => if 0 < bytes.length then 0 else retries
  | .error => retries + 1
  | .timeout => retries + 1

/-- The buffer after an event. -/
def SocketEvent.buf (buf : Bytes) : SocketEvent → Bytes
  | .datagram bytes => recv buf bytes
  | .error => buf
  | .timeout => buf

/-- What is handed to `SplitQueue::send`: the id and the job. -/
def SocketEvent.forward (buf : Bytes) : SocketEvent → Option (UInt32 × Job)
  | .datagram bytes => if 0 < bytes.length then some (decodeFrame (recv buf bytes)) else none
  | .error => none
  | .timeout => none

/-- What the loop hands on, from a buffer and a counter of retries on. -/
def forwards (maxRetries : Nat) : Bytes → Nat → List SocketEvent → List (UInt32 × Job)
  | _, _, [] => []
  | buf, retries, event :: rest =>
      if retries < maxRetries then
        (event.forward buf).toList ++
          forwards maxRetries (event.buf buf) (event.retries retries) rest
      else []

/-- `receiver` -/
def receiver (maxRetries : Nat) (events : List SocketEvent) : List (UInt32 × Job) :=
  forwards maxRetries (List.replicate frameSize 0) 0 events

/-! ## Frames -/

/-- The frame `reader` encodes for an id, an index and data. -/
def encodeFrame (id : UInt32) (job : Job) : Bytes :=
  Reader.frame (Bytes.splice (List.replicate frameSize 0) 0 (Bytes.toBE idSize id.toNat))
    job.index job.data

def SocketEvent.bytes : SocketEvent → List Bytes
  | .datagram bytes => [bytes]
  | .error => []
  | .timeout => []

/-- The datagrams that are received before the loop ends. -/
def received (maxRetries : Nat) : Nat → List SocketEvent → List Bytes
  | _, [] => []
  | retries, event :: rest =>
      if retries < maxRetries then
        event.bytes ++ received maxRetries (event.retries retries) rest
      else []

/-- The datagram fills a frame; what is longer is cut off. -/
def Complete (datagram : Bytes) : Prop := frameSize ≤ datagram.length

instance : DecidablePred Complete := fun _ => inferInstanceAs (Decidable (_ ≤ _))

/-- The frame is decoded to the id and the job, and is the one that is encoded for them. -/
def FrameOf (forwarded : UInt32 × Job) (datagram : Bytes) : Prop :=
  forwarded = decodeFrame (datagram.take frameSize) ∧
    encodeFrame forwarded.1 forwarded.2 = datagram.take frameSize

variable {buf datagram : Bytes} {maxRetries retries : Nat} {events : List SocketEvent}

theorem frame_eq_append {index : UInt64} {data : Bytes} (size : buf.length = frameSize)
    (whole : data.length = transferBufferSize) :
    Reader.frame buf index data =
      buf.take idSize ++ Bytes.toBE indexSize index.toNat ++ data := by
  obtain ⟨length, idBytes, indexBytes, dataBytes⟩ :=
    Reader.frame_spec index data size (Nat.le_of_eq whole)
  have sizes : frameSize = idSize + indexSize + transferBufferSize := rfl
  have rest : (Reader.frame buf index data).drop (idSize + indexSize) = data := by
    rwa [List.take_of_length_le] at dataBytes
    rw [List.length_drop]
    omega
  rw [← idBytes, ← indexBytes, ← List.take_add]
  conv_lhs => rw [← List.take_append_drop (idSize + indexSize) (Reader.frame buf index data), rest]

/-- A frame of the right length is the one that is encoded for what it is decoded to. -/
theorem encodeFrame_decodeFrame {frame : Bytes} (size : frame.length = frameSize) :
    encodeFrame (decodeFrame frame).1 (decodeFrame frame).2 = frame := by
  have sizes : frameSize = idSize + indexSize + transferBufferSize := rfl
  have idBytes : (frame.take idSize).length = idSize := by
    rw [List.length_take]
    omega
  have indexBytes : ((frame.drop idSize).take indexSize).length = indexSize := by
    rw [List.length_take, List.length_drop]
    omega
  have dataBytes : (decodeFrame frame).2.data.length = transferBufferSize := by
    rw [decodeFrame, List.length_drop]
    omega
  have idBound : Bytes.fromBE (frame.take idSize) < 2 ^ 32 := by
    have below := Bytes.fromBE_lt (frame.take idSize)
    rwa [idBytes] at below
  have indexBound : Bytes.fromBE ((frame.drop idSize).take indexSize) < 2 ^ 64 := by
    have below := Bytes.fromBE_lt ((frame.drop idSize).take indexSize)
    rwa [indexBytes] at below
  have id_eq : Bytes.toBE idSize (decodeFrame frame).1.toNat = frame.take idSize := by
    have back := Bytes.toBE_fromBE (frame.take idSize)
    rw [idBytes] at back
    simp only [decodeFrame, UInt32.toNat_ofNat']
    rwa [Nat.mod_eq_of_lt idBound]
  have index_eq : Bytes.toBE indexSize (decodeFrame frame).2.index.toNat =
      (frame.drop idSize).take indexSize := by
    have back := Bytes.toBE_fromBE ((frame.drop idSize).take indexSize)
    rw [indexBytes] at back
    simp only [decodeFrame, UInt64.toNat_ofNat']
    rwa [Nat.mod_eq_of_lt indexBound]
  have empty : (Bytes.splice (List.replicate frameSize 0) 0
      (Bytes.toBE idSize (decodeFrame frame).1.toNat)).take idSize = frame.take idSize := by
    rw [Bytes.splice, List.take_zero, List.nil_append, List.take_left' (Bytes.length_toBE _ _),
      id_eq]
  rw [encodeFrame, frame_eq_append _ dataBytes, empty, index_eq, ← List.take_add]
  · exact List.take_append_drop _ _
  · rw [Bytes.length_splice]
    · exact List.length_replicate
    · rw [Bytes.length_toBE, List.length_replicate, sizes]
      omega

theorem recv_complete (size : buf.length = frameSize) (complete : Complete datagram) :
    recv buf datagram = datagram.take frameSize := by
  rw [recv, size, Bytes.splice_zero_of_length_eq]
  rw [size, List.length_take]
  exact Nat.min_eq_left complete

theorem frameOf_recv (size : buf.length = frameSize) (complete : Complete datagram) :
    FrameOf (decodeFrame (recv buf datagram)) datagram := by
  rw [recv_complete size complete]
  refine ⟨rfl, encodeFrame_decodeFrame ?_⟩
  rw [List.length_take]
  exact Nat.min_eq_left complete

theorem length_buf (size : buf.length = frameSize) (event : SocketEvent) :
    (event.buf buf).length = frameSize := by
  cases event with
  | datagram bytes =>
      change (recv buf bytes).length = frameSize
      rw [recv, Bytes.length_splice, size]
      rw [List.length_take]
      omega
  | error => exact size
  | timeout => exact size

/-! ## What is handed on -/

/-- There is a job for every datagram that has any bytes. -/
theorem length_forwards : (forwards maxRetries buf retries events).length =
    ((received maxRetries retries events).filter fun bytes => 0 < bytes.length).length := by
  induction events generalizing buf retries with
  | nil => rfl
  | cons event rest ih =>
      rw [forwards, received]
      split
      next =>
        rw [List.length_append, ih]
        cases event with
        | datagram bytes =>
            by_cases some_ : 0 < bytes.length
            · simp [SocketEvent.forward, SocketEvent.bytes, some_, Nat.add_comm]
            · simp [SocketEvent.forward, SocketEvent.bytes, some_]
        | error => exact Nat.zero_add _
        | timeout => exact Nat.zero_add _
      next => rfl

/-- Where every datagram that has any bytes is complete, its own frame is handed on. -/
theorem forwards_complete (size : buf.length = frameSize)
    (whole : ∀ bytes ∈ received maxRetries retries events, bytes ≠ [] → Complete bytes) :
    List.Forall₂ FrameOf (forwards maxRetries buf retries events)
      ((received maxRetries retries events).filter Complete) := by
  induction events generalizing buf retries with
  | nil => exact .nil
  | cons event rest ih =>
      rw [forwards, received] at *
      split
      next going =>
        rw [if_pos going] at whole
        cases event with
        | datagram bytes =>
            have tail := ih (length_buf size (.datagram bytes))
              fun other mem => whole other (List.mem_cons_of_mem _ mem)
            by_cases empty : bytes = []
            · subst empty
              exact tail
            · have complete := whole bytes List.mem_cons_self empty
              have some_ : 0 < bytes.length := List.length_pos_iff.mpr empty
              have handed : (SocketEvent.datagram bytes).forward buf =
                  some (decodeFrame (recv buf bytes)) := if_pos some_
              have kept : ((SocketEvent.datagram bytes).bytes ++
                  received maxRetries ((SocketEvent.datagram bytes).retries retries) rest).filter
                    Complete = bytes ::
                  (received maxRetries ((SocketEvent.datagram bytes).retries retries) rest).filter
                    Complete := List.filter_cons_of_pos (decide_eq_true complete)
              rw [handed, kept]
              exact .cons (frameOf_recv size complete) tail
        | error => exact ih size whole
        | timeout => exact ih size whole
      next => exact .nil

/-- **No job mixes two datagrams.**  What is handed on are the complete datagrams, each
decoded from its own bytes, if and only if every datagram that is received and has any bytes
is complete. -/
theorem unmixed_iff (maxRetries : Nat) (events : List SocketEvent) :
    List.Forall₂ FrameOf (receiver maxRetries events)
        ((received maxRetries 0 events).filter Complete) ↔
      ∀ bytes ∈ received maxRetries 0 events, bytes ≠ [] → Complete bytes := by
  constructor
  · intro frames bytes mem some_
    have same := frames.length_eq
    rw [receiver, length_forwards] at same
    have fewer : ((received maxRetries 0 events).filter Complete).Sublist
        ((received maxRetries 0 events).filter fun bytes => 0 < bytes.length) := by
      apply List.monotone_filter_right _
      intro bytes complete
      have long : frameSize ≤ bytes.length := of_decide_eq_true complete
      exact decide_eq_true (Nat.lt_of_lt_of_le (by decide) long)
    have all := fewer.eq_of_length same.symm
    have here : bytes ∈ (received maxRetries 0 events).filter Complete := by
      rw [all]
      exact List.mem_filter.mpr ⟨mem, decide_eq_true (List.length_pos_iff.mpr some_)⟩
    exact of_decide_eq_true (List.mem_filter.mp here).2
  · exact forwards_complete List.length_replicate

/-- Behind a frame, twelve bytes are taken for a header: the job has the data of the frame. -/
theorem short_datagram_mixes :
    let events := [.datagram (List.replicate frameSize 1), .datagram (List.replicate 12 2)]
    receiver 10 events =
        [(0x01010101, ⟨List.replicate transferBufferSize 1, 0x0101010101010101⟩),
          (0x02020202, ⟨List.replicate transferBufferSize 1, 0x0202020202020202⟩)] ∧
      ¬ List.Forall₂ FrameOf (receiver 10 events) ((received 10 0 events).filter Complete) := by
  constructor
  · decide +kernel
  · intro frames
    have lengths := frames.length_eq
    revert lengths
    decide +kernel

end Receiver

end Cccp
