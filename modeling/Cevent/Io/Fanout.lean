import Cevent.Io.Push
import Cevent.Io.Stream

/-! Which connections a push reaches, against those that its push type names. -/

namespace Cevent

/-- The fds that a push type names, with the fd of the call. -/
def CePushType.names (pushType : CePushType) (fd other : Int) : Prop :=
  match pushType with
  | .pushFd => other = fd
  | .pushExceptFd => other ≠ fd

instance (pushType : CePushType) (fd other : Int) : Decidable (pushType.names fd other) :=
  match pushType with
  | .pushFd => inferInstanceAs (Decidable (other = fd))
  | .pushExceptFd => inferInstanceAs (Decidable (other ≠ fd))

/-- A connection is registered under an fd. -/
def CeIo.Connects (io : CeIo) (fd : Int) (record : RecordId) (ioFd : CeIoFd) : Prop :=
  ∃ entry ∈ io.ioDict.entries, entry.key = fd ∧ entry.val = record ∧ io.records record = some ioFd

/-- A receiver skips a frame: it makes the calls that it would make without the frame. -/
def Skipped (frame : Bytes) : Prop :=
  ∀ order limit fd rest,
    (parseStream order limit fd (frame ++ rest)).calls = (parseStream order limit fd rest).calls

/--
A push appends one frame to the push buffer of each connection it names, and nothing to the others.

The push processor sends what is in these buffers. A frame without a body is a heartbeat.
-/
structure ReachesNamed (io : CeIo) (pushType : CePushType) (fd : Int) (arg : PacketArg) :
    Prop where
  appended : ∀ other record ioFd, io.Connects other record ioFd →
    ((ceIoPush io pushType fd arg).1.records record).map (·.pushBuffer.content) =
      some (ioFd.pushBuffer.content ++
        if pushType.names fd other then encodeFrame io.host arg.body else [])
  skipped : arg.body = [] → Skipped (encodeFrame io.host arg.body)

/-- What the heartbeat timer passes for its data and size. -/
def heartbeatArg : PacketArg where
  data := none
  size := 0
  backed := by
    intro bytes given
    cases given

/-- `_aeHeartbeatTimeProc`, less the interval it returns, on the io of a server. -/
def aeHeartbeatTimeProc (io : CeIo) (serverFd : Int) : CeIo :=
  (ceIoPush io .pushExceptFd serverFd heartbeatArg).1

/-- A heartbeat makes a receiver do nothing, whatever its byte order is. -/
theorem skipped_heartbeat (host : ByteOrder) : Skipped (encodeFrame host []) := by
  intro order limit fd rest
  rw [encodeFrame_nil]
  cases rest with
  | nil => rfl
  | cons third rest =>
    -- The size of zero is read as soon as one byte follows it.
    change (parseStream order limit fd (0 :: 0 :: third :: rest)).calls = _
    rw [parseStream, packetLenAt_zero, if_pos rfl]

/-- The push type makes no difference to a push. -/
theorem ceIoPush_pushType (io : CeIo) (pushType other : CePushType) (fd : Int) (arg : PacketArg) :
    ceIoPush io pushType fd arg = ceIoPush io other fd arg := rfl

/-- The heartbeat of a server is refused for its data and size, and changes nothing. -/
theorem aeHeartbeatTimeProc_eq (io : CeIo) (serverFd : Int) :
    aeHeartbeatTimeProc io serverFd = io := rfl

/-- What a call writes is no part of any push buffer. -/
theorem CeIo.Writes.pushBuffer {io next : CeIo} {fd : Int} (writes : io.Writes fd next)
    (record : RecordId) :
    (next.records record).map (·.pushBuffer) = (io.records record).map (·.pushBuffer) := by
  rcases writes.records record with same | ⟨ioFd, buffer, found, filled⟩
  · rw [same]
  · rw [filled, (CeIo.findIoFd_eq_some_iff.mp found).choose_spec.2.2]
    rfl

/-- So a push leaves the push buffer of a connection as it is. -/
theorem pushBuffer_ceIoPush {io : CeIo} (pushType : CePushType) (fd : Int) (arg : PacketArg)
    {record : RecordId} {ioFd : CeIoFd} (held : io.records record = some ioFd) :
    ((ceIoPush io pushType fd arg).1.records record).map (·.pushBuffer.content) =
      some ioFd.pushBuffer.content := by
  have same := (ceIoPush_writes io pushType fd arg).pushBuffer record
  rw [held, Option.map_some] at same
  obtain ⟨next, there, buffer⟩ := Option.map_eq_some_iff.mp same
  rw [there, Option.map_some, buffer]

/--
A push reaches the connections that its push type names just when it names none.

It is so for every io, every call, and so for the heartbeat of a server.
-/
theorem reaches_named_iff (io : CeIo) (pushType : CePushType) (fd : Int) (arg : PacketArg) :
    ReachesNamed io pushType fd arg ↔
      ∀ other record ioFd, io.Connects other record ioFd → ¬ pushType.names fd other := by
  constructor
  · intro reaches other record ioFd connects named
    have ⟨_, _, _, _, held⟩ := connects
    -- A connection that is named would have a frame more than before.
    have grown := reaches.appended other record ioFd connects
    rw [pushBuffer_ceIoPush pushType fd arg held, if_pos named, Option.some.injEq,
      List.self_eq_append_right] at grown
    -- A frame holds at least its size field.
    have width := congrArg List.length grown
    simp at width
  · intro none_
    refine ⟨?_, ?_⟩
    · intro other record ioFd connects
      have ⟨_, _, _, _, held⟩ := connects
      -- Nobody is to get a frame, and nobody gets one.
      rw [pushBuffer_ceIoPush pushType fd arg held, if_neg (none_ other record ioFd connects),
        List.append_nil]
    · intro empty
      rw [empty]
      exact skipped_heartbeat io.host

/-- Two connections are added. -/
def twoConnections : CeIo :=
  (ceIoAdd (ceIoAdd (ceIoNew .little dictTypeHeapStrings smallConf) 7).1 8).1

/-- A push to all but one of them is accepted, and fills a buffer of the one that is left out. -/
theorem not_reaches_named_two_connections :
    (ceIoPush twoConnections .pushExceptFd 7 oneByteArg).2 = true ∧
      ((ceIoPush twoConnections .pushExceptFd 7 oneByteArg).1.records 0).map
        (fun ioFd => (ioFd.enqueueBuffer.content, ioFd.pushBuffer.content)) =
          some ([1, 0, 5], []) ∧
      ((ceIoPush twoConnections .pushExceptFd 7 oneByteArg).1.records 1).map
        (fun ioFd => (ioFd.enqueueBuffer.content, ioFd.pushBuffer.content)) = some ([], []) ∧
      ¬ ReachesNamed twoConnections .pushExceptFd 7 oneByteArg := by
  refine ⟨rfl, rfl, rfl, ?_⟩
  intro reaches
  -- The other connection should have a frame.
  have grown := reaches.appended 8 1 _ ⟨{ key := 8, val := 1 }, by decide, rfl, rfl, rfl⟩
  cases grown

end Cevent
