import Cevent.Io.Connection
import Cevent.Io.Dict
import Cevent.Pool.WorkPool
import Mathlib.Algebra.Group.Nat.Defs

/-! The `ce_io` object: its registry, its event rings, its pool, and the calls on it. -/

namespace Cevent

/-- The size that `ce_server_startup` creates its event loop with. -/
def aeSetSize : Int := 10 * 1024

/-- A connection record, named by how many were allocated before it. -/
abbrev RecordId := Nat

/-- `sizeof(uintptr_t)`. -/
abbrev uintptrSize : Nat := 8

/-- The bytes of the pointer to a record. -/
def uintptrBytes (record : RecordId) : Bytes :=
  -- The lowest byte comes first, as on the machines the library is built for.
  (List.range uintptrSize).map fun place => UInt8.ofNat (record / 256 ^ place)

/-- A pointer is eight bytes wide. -/
theorem uintptrBytes_backs (record : RecordId) :
    (uintptrSize : Int) ≤ (uintptrBytes record).length := by
  simp [uintptrBytes]

/-- A pointer to a record, as it is passed to `ce_rb_write`. -/
def pointerSource (record : RecordId) : RbSource where
  bytes := uintptrBytes record
  count := uintptrSize
  backed := uintptrBytes_backs record

/-- A ring of record pointers, with the records whose pointers were written to it whole. -/
structure EventRing where
  ring : Ring
  queued : List RecordId
  whole : uintptrSize * queued.length ≤ ring.content.length

namespace EventRing

/-- The ring that `ce_io_new` makes. -/
def new (capacity : Int) (positive : 0 < capacity) : EventRing where
  ring := Ring.new capacity positive
  queued := []
  whole := Nat.zero_le _

/-- `ce_rb_write` of a record pointer, with whether all of it was written. -/
def write (events : EventRing) (record : RecordId) : EventRing × Bool :=
  if fits : (events.ring.write (pointerSource record)).2 = uintptrSize then
    ({ ring := (events.ring.write (pointerSource record)).1
       queued := events.queued ++ [record]
       whole := by
         -- All eight bytes found room, so the ring holds one pointer more.
         have held := events.whole
         rw [Ring.count_write] at fits
         rw [Ring.content_write, List.length_append, List.length_append, List.length_take]
         simp only [pointerSource, uintptrBytes, List.length_map, List.length_range,
           List.length_singleton, uintptrSize, Int.toNat_natCast] at fits held ⊢
         omega }, true)
  else
    ({ ring := (events.ring.write (pointerSource record)).1
       queued := events.queued
       whole := by
         -- A pointer that was cut short leaves its bytes behind, and no record.
         have held := events.whole
         rw [Ring.content_write, List.length_append]
         omega }, false)

/-- The loop condition of the two processors: a pointer can be read. -/
def ready (events : EventRing) : Bool := ceRbCanRead events.ring.rb ≥ uintptrSize

/-- `ce_rb_read` of a pointer, taken as the one that was queued first. -/
def pop (events : EventRing) : Option (RecordId × EventRing) :=
  match waiting : events.queued with
  -- The source would take the address that `ce_rb_read` returns for the pointer itself.
  | [] => none
  | record :: queued =>
    some (record,
      { ring := (events.ring.read uintptrSize).1
        queued := queued
        whole := by
          -- The front pointer leaves with its eight bytes.
          have held := events.whole
          rw [waiting, List.length_cons] at held
          rw [Ring.content_read, List.length_drop]
          simp only [uintptrSize] at held ⊢
          omega })

end EventRing

/-- The jobs that `ce_io.c` registers with its pool. -/
inductive WorkItem where
  /-- `_ce_io_enqueue_buffer_processor`, on the whole io. -/
  | enqueueProcessor
  /-- `_ce_io_push_buffer_processor`, on the whole io. -/
  | pushProcessor
  /-- `_ce_io_delete_fd_processor`, on one record. -/
  | deleteProcessor (record : RecordId)
  deriving DecidableEq, Repr

/-- `ce_conf_t`, less what no modelled function reads, as the checks at startup accept it. -/
structure CeConf where
  perMaxPacketBodySize : UInt16
  perCacheRingbufferSize : Int
  bodyPositive : 0 < perMaxPacketBodySize.toNat
  ringPositive : 0 < perCacheRingbufferSize
  bodyFits : perMaxPacketBodySize.toNat ≤ perCacheRingbufferSize

/-- A configuration with small buffers. -/
def smallConf : CeConf where
  perMaxPacketBodySize := 4
  perCacheRingbufferSize := 16
  bodyPositive := by decide
  ringPositive := by decide
  bodyFits := by decide

/-- The places of an io that hold a `ce_rb_t`. -/
inductive RbOwner where
  | enqueueFdEvent
  | pushFdEvent
  | enqueueBuffer (record : RecordId)
  | pushBuffer (record : RecordId)
  deriving DecidableEq, Repr

/-- The record that a ring buffer belongs to, unless the io has it for its events. -/
def RbOwner.record : RbOwner → Option RecordId
  | .enqueueFdEvent | .pushFdEvent => none
  | .enqueueBuffer record | .pushBuffer record => some record

/-- `struct ce_io`, with the records it has allocated and the byte order of its machine. -/
structure CeIo where
  host : ByteOrder
  conf : CeConf
  ioDict : Dict Int RecordId
  /-- The content of each record that is allocated and not freed. -/
  records : RecordId → Option CeIoFd
  /-- How many records were ever allocated. -/
  allocated : Nat
  workers : WorkPool WorkItem
  stop : Bool
  enqueueFdEvent : EventRing
  pushFdEvent : EventRing
  /-- The ring buffers that `ce_rb_new` has made and `ce_rb_free` has not freed. -/
  rings : RbOwner → Bool

/-- `ce_io_new`, with the type of its dictionary as an argument. -/
def ceIoNew (host : ByteOrder) (type : DictType Int) (conf : CeConf) : CeIo where
  host := host
  conf := conf
  ioDict := dictCreate type
  records := fun _ => none
  allocated := 0
  workers := { workerQueue := [], abort := false }
  stop := false
  -- The event rings are as large as the buffer of a connection.
  enqueueFdEvent := EventRing.new conf.perCacheRingbufferSize conf.ringPositive
  pushFdEvent := EventRing.new conf.perCacheRingbufferSize conf.ringPositive
  rings
    | .enqueueFdEvent | .pushFdEvent => true
    | .enqueueBuffer _ | .pushBuffer _ => false

namespace CeIo

/-- A record with new content. -/
def setRecord (io : CeIo) (record : RecordId) (ioFd : CeIoFd) : CeIo :=
  { io with records := Function.update io.records record (some ioFd) }

/-- `ce_rb_new` of the two buffers of a record. -/
def newRings (io : CeIo) (record : RecordId) : CeIo :=
  let rings := Function.update io.rings (.enqueueBuffer record) true
  { io with rings := Function.update rings (.pushBuffer record) true }

/-- `ce_rb_free` of one ring buffer. -/
def freeRing (io : CeIo) (ring : RbOwner) : CeIo :=
  { io with rings := Function.update io.rings ring false }

/--
The record that a lookup of an fd leads to, which is taken to be the value of the entry.

The source reads `entry->key`, where `dictAdd` has put the key and not the record.
-/
def findIoFd (io : CeIo) (fd : Int) : Option (RecordId × CeIoFd) :=
  (dictFind io.ioDict fd).bind fun entry =>
    (io.records entry.val).map fun ioFd => (entry.val, ioFd)

/-- A job handed to the pool, with whether it was taken. -/
def register (io : CeIo) (item : WorkItem) : CeIo × Bool :=
  let (workers, registered) := ceTpWorkerRegister io.workers item
  ({ io with workers := workers }, registered)

end CeIo

/-- `ce_io_add`. -/
def ceIoAdd (io : CeIo) (fd : Int) : CeIo × Bool :=
  if io.stop then (io, false)
  else
    match dictFind io.ioDict fd with
    -- An fd that is found already is refused before anything is allocated.
    | some _ => (io, false)
    | none =>
      let record := io.allocated
      let ioFd := newIoFd fd io.conf.perCacheRingbufferSize io.conf.ringPositive
      let (ioDict, added) := dictAdd io.ioDict fd record
      ({ (io.setRecord record ioFd).newRings record with
        allocated := record + 1
        ioDict := ioDict }, added)

/-- The io after `ce_io_add` took an fd in. -/
def CeIo.withAdded (io : CeIo) (fd : Int) : CeIo :=
  { (io.setRecord io.allocated
      (newIoFd fd io.conf.perCacheRingbufferSize io.conf.ringPositive)).newRings io.allocated with
    allocated := io.allocated + 1
    ioDict := { io.ioDict with
      entries := io.ioDict.entries ++ [{ key := fd, val := io.allocated }] } }

/-- The `data` and `size` of a call, where no data stands for `NULL`. -/
structure PacketArg where
  data : Option Bytes
  size : UInt16
  /-- The caller's memory holds as many bytes as the caller says. -/
  backed : ∀ bytes ∈ data, size.toNat ≤ bytes.length

/-- A packet of one byte, as a caller passes it. -/
def oneByteArg : PacketArg where
  data := some [5]
  size := 1
  backed := by simp

/-- The data of a call, as they are passed to `ce_rb_write`. -/
def PacketArg.source (arg : PacketArg) (bytes : Bytes) (given : arg.data = some bytes) :
    RbSource where
  bytes := bytes
  count := arg.size.toNat
  backed := Int.ofNat_le.mpr (arg.backed bytes given)

/-- A size field holds the bytes that are written of it. -/
theorem packetLenBytes_backs (order : ByteOrder) (size : UInt16) :
    (packetLenSize : Int) ≤ (packetLenBytes order size).length := by
  simp

/-- The size field of a packet, as it is passed to `ce_rb_write`. -/
def sizeSource (host : ByteOrder) (size : UInt16) : RbSource where
  bytes := packetLenBytes host size
  count := packetLenSize
  backed := packetLenBytes_backs host size

/-- `ce_io_enqueue`. -/
def ceIoEnqueue (io : CeIo) (fd : Int) (arg : PacketArg) : CeIo × Bool :=
  match given : arg.data with
  | none => (io, false)
  | some bytes =>
    if fd ≤ 0 ∨ arg.size = 0 then (io, false)
    else if io.stop then (io, false)
    else
      match io.findIoFd fd with
      | none => (io, false)
      | some (record, ioFd) =>
        -- What fits is stored, also when the call fails for the rest.
        let (enqueueBuffer, writeSize) := ioFd.enqueueBuffer.write (arg.source bytes given)
        let io := io.setRecord record { ioFd with enqueueBuffer := enqueueBuffer }
        if writeSize ≠ arg.size.toNat then (io, false)
        else
          -- The event is queued once the bytes are in place.
          let (events, whole) := io.enqueueFdEvent.write record
          let io := { io with enqueueFdEvent := events }
          if whole then io.register .enqueueProcessor else (io, false)

/-- `ce_push_type`. -/
inductive CePushType where
  | pushFd
  | pushExceptFd
  deriving DecidableEq, Repr

/-- `ce_io_push`, which never looks at its push type. -/
def ceIoPush (io : CeIo) (_pushType : CePushType) (fd : Int) (arg : PacketArg) : CeIo × Bool :=
  match given : arg.data with
  | none => (io, false)
  | some bytes =>
    if fd ≤ 0 ∨ arg.size = 0 then (io, false)
    else if io.stop then (io, false)
    else
      match io.findIoFd fd with
      | none => (io, false)
      | some (record, ioFd) =>
        -- Both writes go to the enqueue buffer, and no event is queued.
        let (sized, writeSize) := ioFd.enqueueBuffer.write (sizeSource io.host arg.size)
        let io := io.setRecord record { ioFd with enqueueBuffer := sized }
        if writeSize ≠ packetLenSize then (io, false)
        else
          let (filled, writeSize) := sized.write (arg.source bytes given)
          let io := io.setRecord record { ioFd with enqueueBuffer := filled }
          if writeSize ≠ arg.size.toNat then (io, false)
          -- A registration that fails leaves the frame in the buffer.
          else io.register .enqueueProcessor

/-- `ce_io_del`, which takes the record of its job from the entry's value, as `findIoFd` does. -/
def ceIoDel (io : CeIo) (fd : Int) : CeIo × Bool :=
  if fd ≤ 0 then (io, false)
  else if io.stop then (io, false)
  else
    match dictFind io.ioDict fd with
    | none => (io, false)
    | some entry =>
      -- The entry goes first, and the record when a worker comes to the job.
      let io := { io with ioDict := (dictDelete io.ioDict fd).1 }
      -- Whether the pool took the job is not looked at.
      ((io.register (.deleteProcessor entry.val)).1, true)

/-- The calls that an io is given. -/
inductive IoApi where
  | add (fd : Int)
  | enqueue (fd : Int) (arg : PacketArg)
  | push (pushType : CePushType) (fd : Int) (arg : PacketArg)
  | del (fd : Int)

/-- An io after a call, with what the call returns. -/
def ioCall (io : CeIo) : IoApi → CeIo × Bool
  | .add fd => ceIoAdd io fd
  | .enqueue fd arg => ceIoEnqueue io fd arg
  | .push pushType fd arg => ceIoPush io pushType fd arg
  | .del fd => ceIoDel io fd

end Cevent
