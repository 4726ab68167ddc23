import Cevent.Io.Packet
import Cevent.Library.Loop
import Cevent.Ring.State

/-! One connection record of `ce_io.c`, and the per-connection loops of the two processors. -/

namespace Cevent

open BoundedLoop

/-- `ce_exception`. -/
inductive CeException where
  | packetIllegal
  | packetSendError
  deriving DecidableEq, Repr

/-- The calls that a processor makes out of the library. -/
inductive IoCall where
  /-- `conf.on_received(fd, data, size)`, with the bytes that `data` designates. -/
  | onReceived (fd : Int) (data : Bytes) (size : UInt16)
  /-- `conf.on_exception(fd, exception)`. -/
  | onException (fd : Int) (exception : CeException)
  /-- `send(fd, data, insize)`, with the `insize` bytes that `data` designates. -/
  | send (fd : Int) (data : Bytes)
  deriving DecidableEq, Repr

/-- The call is `on_exception`. -/
def IoCall.isException : IoCall → Bool
  | .onException _ _ => true
  | _ => false

/-- No call of a list comes after an `on_exception` in it. -/
inductive ExceptionLast : List IoCall → Prop where
  | nil : ExceptionLast []
  | single (call : IoCall) : ExceptionLast [call]
  | cons {call : IoCall} {calls : List IoCall} (plain : call.isException = false)
      (later : ExceptionLast calls) : ExceptionLast (call :: calls)

/-- What comes before a call of such a list holds no `on_exception`. -/
theorem ExceptionLast.before {calls before after : List IoCall} {call : IoCall}
    (last : ExceptionLast calls) (split : calls = before ++ call :: after) :
    before.any (·.isException) = false := by
  -- The induction is on how the list was put together.
  induction last generalizing before with
  | nil => simp at split
  | single only =>
    cases before with
    | nil => rfl
    | cons first rest => simp at split
  | cons plain _ ih =>
    cases before with
    | nil => rfl
    | cons first rest =>
      -- The call in question lies behind a plain one, in the rest of the list.
      obtain ⟨rfl, tail⟩ := List.cons.inj split
      rw [List.any_cons, plain, ih tail]
      rfl

/-- `struct ce_io_fd`, less its back pointer and its locks. -/
structure CeIoFd where
  fd : Int
  enqueueBuffer : Ring
  enqueueCacheBodySize : UInt16
  pushBuffer : Ring

/-- The record that `ce_io_add` allocates. -/
def newIoFd (fd perCacheRingbufferSize : Int) (positive : 0 < perCacheRingbufferSize) : CeIoFd where
  fd := fd
  -- Both rings get the one size that the configuration names.
  enqueueBuffer := Ring.new perCacheRingbufferSize positive
  enqueueCacheBodySize := 0
  pushBuffer := Ring.new perCacheRingbufferSize positive

/-- How a per-connection loop is left. -/
inductive LoopExit where
  /-- A plain `break`, or the end of the loop condition. -/
  | leave
  /-- A `break` right after `on_exception` and `ce_io_del` on the record's own fd. -/
  | fail
  deriving DecidableEq, Repr

/-- One pass of `for (;;)` in `_ce_io_enqueue_buffer_processor`. -/
def enqueuePass (order : ByteOrder) (perMaxPacketBodySize : UInt16) (ioFd : CeIoFd) :
    Pass CeIoFd IoCall LoopExit :=
  if ceRbCanRead ioFd.enqueueBuffer.rb ≤ packetLenSize then
    -- A whole size field and at least one byte more must be there.
    { state := ioFd, events := [], exit := some .leave }
  else
    -- From here on the size field is out of the buffer, whatever follows.
    let (afterSize, sizeField) := ioFd.enqueueBuffer.read packetLenSize
    let enqueueBodySize := packetLenOf order sizeField
    let ioFd := { ioFd with enqueueBuffer := afterSize }
    if enqueueBodySize = 0 then
      -- maybe a heartbeat packet which size will be 0
      { state := ioFd, events := [], exit := none }
    else if enqueueBodySize > perMaxPacketBodySize then
      { state := ioFd
        events := [.onException ioFd.fd .packetIllegal]
        exit := some .fail }
    else if (enqueueBodySize.toNat : Int) < ceRbCanRead ioFd.enqueueBuffer.rb then
      -- The source calls this branch "not enough for a complete packet".
      { state := { ioFd with enqueueCacheBodySize := enqueueBodySize }
        events := []
        exit := some .leave }
    else
      let (afterBody, readData) := ioFd.enqueueBuffer.read enqueueBodySize.toNat
      { state := { ioFd with enqueueBuffer := afterBody, enqueueCacheBodySize := 0 }
        events := [.onReceived ioFd.fd readData (UInt16.ofNat readData.length)]
        exit := none }

/-- The per-connection loop of `_ce_io_enqueue_buffer_processor`. -/
def enqueueLoop (order : ByteOrder) (perMaxPacketBodySize : UInt16) (ioFd : CeIoFd) :
    Pass CeIoFd IoCall LoopExit :=
  -- Each pass that stays in the loop has taken at least a size field.
  run (enqueuePass order perMaxPacketBodySize) (·.enqueueBuffer.content.length) ioFd

/-- `CE_SEND_PER_SIZE`. -/
def ceSendPerSize : Nat := 100 * 1024

/-- One pass of the inner `while` in `_ce_io_push_buffer_processor`. -/
def pushPass (send : Int → Bytes → Int) (ioFd : CeIoFd) : Pass CeIoFd IoCall LoopExit :=
  -- The bytes are out of the buffer before they are sent.
  let (afterRead, readData) := ioFd.pushBuffer.read ceSendPerSize
  if readData.length > 0 then
    -- The count travels through a 16-bit parameter, so the callback is given that many bytes.
    let given := readData.take (UInt16.ofNat readData.length).toNat
    let ioFd := { ioFd with pushBuffer := afterRead }
    if send ioFd.fd given ≠ readData.length then
      { state := ioFd
        events := [.send ioFd.fd given, .onException ioFd.fd .packetSendError]
        exit := some .fail }
    else
      { state := ioFd, events := [.send ioFd.fd given], exit := none }
  else
    { state := { ioFd with pushBuffer := afterRead }, events := [], exit := some .leave }

/-- The per-connection loop of `_ce_io_push_buffer_processor`. -/
def pushLoop (send : Int → Bytes → Int) (ioFd : CeIoFd) : Pass CeIoFd IoCall LoopExit :=
  run (pushPass send) (·.pushBuffer.content.length) ioFd

end Cevent
