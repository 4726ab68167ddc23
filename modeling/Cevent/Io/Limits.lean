import Cevent.Io.Stream
import Cevent.Io.Streams

/-! What a receiver makes of the size of a packet that a sender was allowed to push. -/

namespace Cevent

/-- The bytes that a push adds to the enqueue buffer of the connection it finds. -/
def emittedFrame (io : CeIo) (pushType : CePushType) (fd : Int) (arg : PacketArg) : Bytes :=
  match io.findIoFd fd with
  | none => []
  | some (record, ioFd) =>
    match (ceIoPush io pushType fd arg).1.records record with
    | none => []
    -- What is new in the buffer of the connection stands behind what was there.
    | some next => next.enqueueBuffer.content.drop ioFd.enqueueBuffer.content.length

/-- A loop over a buffer has found an illegal packet: it reports it, or it gives the connection up. -/
def FindsIllegal (done : BoundedLoop.Pass CeIoFd IoCall LoopExit) : Prop :=
  -- The source does both right after each other, so either tells that the packet was found illegal.
  (∃ fd, .onException fd .packetIllegal ∈ done.events) ∨ done.exit = some .fail

/--
A receiver takes a frame for a legal one.

When its loop comes to the frame, with the rest of the frame there and anything at all behind it, it
does not find it illegal.
-/
def TakesForLegal (host : ByteOrder) (limit : UInt16) (frame : Bytes) : Prop :=
  ∀ (peer : CeIoFd) (rest : Bytes), peer.enqueueBuffer.content = frame ++ rest →
    ¬ FindsIllegal (enqueueLoop host limit peer)

/-- What a push on an io has sent is taken for legal by a peer with the same limit. -/
def LimitsAgree (io : CeIo) (peerHost : ByteOrder) (pushType : CePushType) (fd : Int)
    (arg : PacketArg) : Prop :=
  (ceIoPush io pushType fd arg).2 = true →
    TakesForLegal peerHost io.conf.perMaxPacketBodySize (emittedFrame io pushType fd arg)

/-- The size that a peer reads in the place of the one that was written. -/
def sizeAsRead (host peerHost : ByteOrder) (size : UInt16) : UInt16 :=
  packetLenOf peerHost (packetLenBytes host size)

/-- Wherever a push has room for its packet, the peer will read a size within the limit. -/
def CeIo.SendsLegalSize (io : CeIo) (peerHost : ByteOrder) (call : StreamCall) : Prop :=
  io.LooksUp call → ∀ record ioFd, io.findIoFd call.fd = some (record, ioFd) → io.Takes call ioFd →
    sizeAsRead io.host peerHost call.arg.size ≤ io.conf.perMaxPacketBodySize

/-- A peer of the same byte order reads the size that was written. -/
theorem sizeAsRead_self (host : ByteOrder) (size : UInt16) : sizeAsRead host host size = size := by
  -- The field is read back as it was written.
  have read := packetLenOf_packetLenBytes host size []
  rwa [List.append_nil] at read

/-- In either byte order, only a size of zero is read as zero. -/
theorem sizeAsRead_eq_zero_iff (host peerHost : ByteOrder) (size : UInt16) :
    sizeAsRead host peerHost size = 0 ↔ size = 0 := by
  have bound := size.toNat_lt
  -- The two digits are read in the order written, or in the other one.
  rw [← UInt16.toNat_inj, ← UInt16.toNat_inj]
  cases host <;> cases peerHost <;>
    simp only [sizeAsRead, packetLenBytes, packetLenOf, packetLenAt, UInt8.toNat_ofNat',
      UInt16.toNat_ofNat', UInt16.toNat_zero] <;> omega

/-- A frame with a body starts with two bytes of a size field, and at least one more follows. -/
theorem frame_digits (host : ByteOrder) (size : UInt16) {body : Bytes} (rest : Bytes)
    (some_ : body ≠ []) : ∃ first second third tail,
      packetLenBytes host size ++ body ++ rest = first :: second :: third :: tail ∧
        ∀ peerHost, packetLenAt peerHost first second = sizeAsRead host peerHost size := by
  obtain ⟨third, others, rfl⟩ := List.exists_cons_of_ne_nil some_
  -- Either order stores two digits, and the body brings the third byte.
  cases host with
  | little => exact ⟨_, _, third, others ++ rest, rfl, fun _ => rfl⟩
  | big => exact ⟨_, _, third, others ++ rest, rfl, fun _ => rfl⟩

/-- The enqueue loop finds a frame illegal just when it reads a size above the limit. -/
theorem findsIllegal_iff (host peerHost : ByteOrder) (limit size : UInt16) {body : Bytes}
    (nonzero : size ≠ 0) (some_ : body ≠ []) {peer : CeIoFd} {rest : Bytes}
    (arrived : peer.enqueueBuffer.content = packetLenBytes host size ++ body ++ rest) :
    FindsIllegal (enqueueLoop peerHost limit peer) ↔ limit < sizeAsRead host peerHost size := by
  obtain ⟨events, -, exit, -⟩ := enqueueLoop_parse peerHost limit peer
  obtain ⟨first, second, third, tail, digits, read⟩ := frame_digits host size rest some_
  have legal : ¬ sizeAsRead host peerHost size = 0 :=
    mt (sizeAsRead_eq_zero_iff host peerHost size).mp nonzero
  -- The size is no heartbeat's, so the loop decides about it in its first pass.
  rw [FindsIllegal, events, exit, arrived, digits, parseStream, read peerHost]
  simp only [if_neg legal, gt_iff_lt]
  split_ifs with above longer
  · exact iff_of_true (.inr rfl) above
  · refine iff_of_false ?_ above
    simp
  · refine iff_of_false ?_ above
    simp

/-- A record whose enqueue buffer holds just the given bytes. -/
def fdHolding (bytes : Bytes) (some_ : bytes ≠ []) : CeIoFd :=
  have positive : (0 : Int) < bytes.length := Int.natCast_pos.mpr (List.length_pos_iff.mpr some_)
  { newIoFd 1 bytes.length positive with
    enqueueBuffer := ((Ring.new bytes.length positive).write
      { bytes := bytes, count := bytes.length, backed := length_backs bytes }).1 }

/-- It does hold them. -/
theorem content_fdHolding (bytes : Bytes) (some_ : bytes ≠ []) :
    (fdHolding bytes some_).enqueueBuffer.content = bytes := by
  have positive : (0 : Int) < bytes.length := Int.natCast_pos.mpr (List.length_pos_iff.mpr some_)
  -- A new ring as long as the bytes has room for all of them.
  have room : (Ring.new bytes.length positive).room = bytes.length := by
    rw [Ring.room, Ring.content_new, List.length_nil, Nat.sub_zero]
    rfl
  rw [fdHolding]
  simp only [Ring.content_write, Ring.content_new, room, List.nil_append]
  exact List.take_of_length_le (by simp)

/-- Such a frame is taken for legal just when the size is read within the limit. -/
theorem takesForLegal_iff (host peerHost : ByteOrder) (limit size : UInt16) {body : Bytes}
    (nonzero : size ≠ 0) (some_ : body ≠ []) :
    TakesForLegal peerHost limit (packetLenBytes host size ++ body) ↔
      sizeAsRead host peerHost size ≤ limit := by
  rw [← UInt16.not_lt]
  constructor
  · intro takes above
    -- A peer that holds the frame and nothing else would report it.
    have there : packetLenBytes host size ++ body ≠ [] := by simp [some_]
    have arrived := content_fdHolding _ there
    refine takes _ [] (by rw [arrived, List.append_nil]) ?_
    exact (findsIllegal_iff host peerHost limit size nonzero some_
      (arrived.trans (List.append_nil _).symm)).mpr above
  · -- Whatever follows the frame, the loop decides about its size first.
    intro within peer rest arrived finds
    exact within ((findsIllegal_iff host peerHost limit size nonzero some_ arrived).mp finds)

/-- A call that looks its fd up has a size that is not zero, and at least one byte of data. -/
theorem CeIo.LooksUp.body_ne_nil {io : CeIo} {call : StreamCall} {bytes : Bytes}
    (looks : io.LooksUp call) (given : call.arg.data = some bytes) :
    call.arg.size ≠ 0 ∧ bytes.take call.arg.size.toNat ≠ [] := by
  have backed := call.arg.backed bytes given
  have nonzero : call.arg.size ≠ 0 := fun zero => looks.2.1 (.inr zero)
  refine ⟨nonzero, ?_⟩
  -- The caller's memory holds as many bytes as the size says, and that is not zero.
  intro empty
  have width := congrArg List.length empty
  rw [List.length_take_of_le backed, List.length_nil] at width
  exact nonzero (UInt16.toNat_inj.mp width)

/-- A push that has come to a connection and succeeds has sent its whole frame. -/
theorem emittedFrame_of_takes {io : CeIo} {pushType : CePushType} {fd : Int} {arg : PacketArg}
    {bytes : Bytes} {record : RecordId} {ioFd : CeIoFd} (given : arg.data = some bytes)
    (looks : io.LooksUp (.push pushType fd arg)) (found : io.findIoFd fd = some (record, ioFd))
    (takes : io.Takes (.push pushType fd arg) ioFd) :
    emittedFrame io pushType fd arg =
      packetLenBytes io.host arg.size ++ bytes.take arg.size.toNat := by
  have stores : io.Stores (.push pushType fd arg) record ioFd bytes (ceIoPush io pushType fd arg).1
      (ceIoPush io pushType fd arg).2 :=
    ceIoPush_stores pushType given looks.2.1 looks.2.2 found
  obtain ⟨⟨buffer, records, content⟩, -⟩ := stores
  have width : ((StreamCall.push pushType fd arg).stored io.host bytes).length =
      (StreamCall.push pushType fd arg).needed := StreamCall.length_stored io.host given
  -- There was room for all that the push stores, so nothing was cut off.
  have whole := List.take_of_length_le (Nat.le_trans (Nat.le_of_eq width) takes.1)
  rw [emittedFrame, found]
  simp only [records, Function.update_self]
  rw [content, whole, List.drop_left]
  rfl

/--
Sender and receiver agree on a packet just when the size that the peer reads is within its limit.

The io may be in any state, and the peer may store integers in either order.
-/
theorem limitsAgree_iff (io : CeIo) (peerHost : ByteOrder) (pushType : CePushType) (fd : Int)
    (arg : PacketArg) :
    LimitsAgree io peerHost pushType fd arg ↔
      io.SendsLegalSize peerHost (.push pushType fd arg) := by
  -- Where the push succeeds, both sides speak of the one frame that it sends.
  have emitted : io.LooksUp (.push pushType fd arg) → ∀ record ioFd,
      io.findIoFd fd = some (record, ioFd) → io.Takes (.push pushType fd arg) ioFd →
      (TakesForLegal peerHost io.conf.perMaxPacketBodySize (emittedFrame io pushType fd arg) ↔
        sizeAsRead io.host peerHost arg.size ≤ io.conf.perMaxPacketBodySize) := by
    intro looks record ioFd found takes
    obtain ⟨bytes, given⟩ : ∃ bytes, arg.data = some bytes :=
      Option.ne_none_iff_exists'.mp looks.1
    have body : arg.size ≠ 0 ∧ bytes.take arg.size.toNat ≠ [] := looks.body_ne_nil given
    rw [emittedFrame_of_takes given looks found takes]
    exact takesForLegal_iff io.host peerHost _ arg.size body.1 body.2
  have result := ioCall_result_iff io (.push pushType fd arg)
  constructor
  · intro agree looks record ioFd found takes
    exact (emitted looks record ioFd found takes).mp
      (agree (result.mpr ⟨looks, record, ioFd, found, takes⟩))
  · intro legal succeeds
    -- The push returned true, so it came to a connection and stored its whole frame there.
    obtain ⟨looks, record, ioFd, found, takes⟩ := result.mp succeeds
    exact (emitted looks record ioFd found takes).mpr (legal looks record ioFd found takes)

/-- Five bytes of data, one more than the limit of the small configuration. -/
def fiveBytesArg : PacketArg where
  data := some [1, 2, 3, 4, 5]
  size := 5
  backed := by simp

/-- The push of a packet above the limit succeeds, and the peer finds it illegal. -/
theorem not_limitsAgree_above : ¬ LimitsAgree newConnection .little .pushFd 7 fiveBytesArg := by
  intro agree
  have legal := agree (by decide)
  -- The five bytes were pushed whole, behind a size of five.
  have frame : emittedFrame newConnection .pushFd 7 fiveBytesArg =
      packetLenBytes .little 5 ++ [1, 2, 3, 4, 5] := by decide
  rw [frame] at legal
  exact absurd ((takesForLegal_iff .little .little _ 5 (by decide) (by decide)).mp legal) (by decide)

end Cevent
