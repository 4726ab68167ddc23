import Cevent.Io.Calls

/-! What `ce_io_enqueue` and `ce_io_push` store in a connection, and what a failed call leaves there. -/

namespace Cevent

/-- A call that stores bytes in the enqueue buffer of a connection. -/
inductive StreamCall where
  | enqueue (fd : Int) (arg : PacketArg)
  | push (pushType : CePushType) (fd : Int) (arg : PacketArg)

namespace StreamCall

/-- The call on the io. -/
def api : StreamCall → IoApi
  | .enqueue fd arg => .enqueue fd arg
  | .push pushType fd arg => .push pushType fd arg

/-- The fd that the call is about. -/
def fd : StreamCall → Int
  | .enqueue fd _ | .push _ fd _ => fd

/-- The data and size of the call. -/
def arg : StreamCall → PacketArg
  | .enqueue _ arg | .push _ _ arg => arg

/-- The bytes that the call is to store: the data, which a push puts behind a size field. -/
def stored (host : ByteOrder) (bytes : Bytes) : StreamCall → Bytes
  | .enqueue _ arg => bytes.take arg.size.toNat
  -- The two writes of a push are one stretch of the stream.
  | .push _ _ arg => packetLenBytes host arg.size ++ bytes.take arg.size.toNat

/-- How many bytes these are. -/
def needed : StreamCall → Nat
  | .enqueue _ arg => arg.size.toNat
  | .push _ _ arg => packetLenSize + arg.size.toNat

/-- The event ring takes the pointer that the call queues. -/
def EventFits (io : CeIo) : StreamCall → Prop
  | .enqueue _ _ => uintptrSize ≤ io.enqueueFdEvent.ring.room
  -- A push queues no event.
  | .push _ _ _ => True

end StreamCall

/-- A call looks its fd up: its arguments are legal, and the io is running. -/
def CeIo.LooksUp (io : CeIo) (call : StreamCall) : Prop :=
  call.arg.data ≠ none ∧ ¬ (call.fd ≤ 0 ∨ call.arg.size = 0) ∧ io.stop = false

/-- Everything that a call does on a connection succeeds. -/
def CeIo.Takes (io : CeIo) (call : StreamCall) (ioFd : CeIoFd) : Prop :=
  call.needed ≤ ioFd.enqueueBuffer.room ∧ call.EventFits io ∧ io.workers.abort = false

/-- What can be read from the two buffers of a record. -/
def CeIo.streams (io : CeIo) (record : RecordId) : Option (Bytes × Bytes) :=
  (io.records record).map fun ioFd => (ioFd.enqueueBuffer.content, ioFd.pushBuffer.content)

/-- If a call returns false, the streams of all connections are what they were. -/
def FailureKeepsStreams (io : CeIo) (call : StreamCall) : Prop :=
  (ioCall io call.api).2 = false → (ioCall io call.api).1.streams = io.streams

/--
A call stores all its bytes or none of them.

It does not come to a lookup, or it finds no connection, or one whose buffer is full, or one on which
everything succeeds.
-/
def CeIo.AllOrNothing (io : CeIo) (call : StreamCall) : Prop :=
  io.LooksUp call → ∀ record ioFd, io.findIoFd call.fd = some (record, ioFd) →
    -- A full buffer takes nothing in, so a failure leaves nothing behind.
    ioFd.enqueueBuffer.room = 0 ∨ io.Takes call ioFd

/-- What a call has done that came to a connection. -/
structure CeIo.Stores (io : CeIo) (call : StreamCall) (record : RecordId) (ioFd : CeIoFd)
    (bytes : Bytes) (next : CeIo) (result : Bool) : Prop where
  /-- The enqueue buffer of the connection holds as many of the bytes as there was room for. -/
  filled : ∃ enqueueBuffer,
    next.records = Function.update io.records record (some { ioFd with enqueueBuffer }) ∧
    enqueueBuffer.content =
      ioFd.enqueueBuffer.content ++ (call.stored io.host bytes).take ioFd.enqueueBuffer.room
  result : result = true ↔ io.Takes call ioFd

/-- A pool takes a job just when it is not being destroyed. -/
theorem CeIo.register_result (io : CeIo) (item : WorkItem) :
    (io.register item).2 = true ↔ io.workers.abort = false := by
  cases alive : io.workers.abort <;> simp [CeIo.register, ceTpWorkerRegister, alive]

/-- `ce_io_enqueue` stores its data, as far as there is room. -/
theorem ceIoEnqueue_stores {io : CeIo} {fd : Int} {arg : PacketArg} {bytes : Bytes}
    {record : RecordId} {ioFd : CeIoFd} (given : arg.data = some bytes)
    (legal : ¬ (fd ≤ 0 ∨ arg.size = 0)) (running : io.stop = false)
    (found : io.findIoFd fd = some (record, ioFd)) :
    io.Stores (.enqueue fd arg) record ioFd bytes (ceIoEnqueue io fd arg).1
      (ceIoEnqueue io fd arg).2 := by
  unfold ceIoEnqueue
  split
  · rename_i absent
    exact absurd (given.symm.trans absent) (by simp)
  · rename_i bytes' given'
    obtain rfl : bytes' = bytes := Option.some.inj (given'.symm.trans given)
    have count : (ioFd.enqueueBuffer.write (arg.source bytes' given')).2 =
        min arg.size.toNat ioFd.enqueueBuffer.room := Ring.count_write ..
    -- What the ring takes in is the front of the data, as far as there is room.
    have content : (ioFd.enqueueBuffer.write (arg.source bytes' given')).1.content =
        ioFd.enqueueBuffer.content ++
          (bytes'.take arg.size.toNat).take ioFd.enqueueBuffer.room := by
      rw [Ring.content_write, List.take_take, Nat.min_comm]
      rfl
    rw [if_neg legal, if_neg (by simp [running])]
    simp only [found]
    -- Each early return comes after one more of the things that must succeed.
    split_ifs with short whole
    · refine ⟨⟨_, rfl, content⟩, ?_⟩
      rw [count] at short
      simp only [Bool.false_eq_true, CeIo.Takes, StreamCall.needed, false_iff, not_and]
      intro fits
      omega
    · refine ⟨⟨_, rfl, content⟩, ?_⟩
      rw [CeIo.register_result]
      rw [count, not_not] at short
      have fits : arg.size.toNat ≤ ioFd.enqueueBuffer.room := by omega
      exact (and_iff_right fits).trans (and_iff_right ((EventRing.write_whole_iff ..).mp whole)) |>.symm
    · refine ⟨⟨_, rfl, content⟩, ?_⟩
      -- The data are stored, and the event found no room.
      have full : ¬ uintptrSize ≤ io.enqueueFdEvent.ring.room :=
        mt (EventRing.write_whole_iff io.enqueueFdEvent record).mpr whole
      simp only [Bool.false_eq_true, CeIo.Takes, StreamCall.EventFits, false_iff, not_and]
      intro _ room
      exact absurd room full

/-- The first write of a push stores the size field, as far as there is room. -/
theorem sizeField_write (ring : Ring) (host : ByteOrder) (size : UInt16) :
    (ring.write (sizeSource host size)).2 = min packetLenSize ring.room ∧
      (ring.write (sizeSource host size)).1.content =
        ring.content ++ (packetLenBytes host size).take ring.room := by
  constructor
  · rw [Ring.count_write]
    rfl
  · -- The field is two bytes, so asking for two of them is asking for all.
    rw [Ring.content_write, Nat.min_comm, ← List.take_take]
    congr 2
    exact List.take_of_length_le (Nat.le_of_eq (length_packetLenBytes host size))

/-- `ce_io_push` stores a size field and then its data, as far as there is room. -/
theorem ceIoPush_stores {io : CeIo} (pushType : CePushType) {fd : Int} {arg : PacketArg}
    {bytes : Bytes} {record : RecordId} {ioFd : CeIoFd} (given : arg.data = some bytes)
    (legal : ¬ (fd ≤ 0 ∨ arg.size = 0)) (running : io.stop = false)
    (found : io.findIoFd fd = some (record, ioFd)) :
    io.Stores (.push pushType fd arg) record ioFd bytes (ceIoPush io pushType fd arg).1
      (ceIoPush io pushType fd arg).2 := by
  unfold ceIoPush
  split
  · rename_i absent
    exact absurd (given.symm.trans absent) (by simp)
  · rename_i bytes' given'
    obtain rfl : bytes' = bytes := Option.some.inj (given'.symm.trans given)
    have backed : arg.size.toNat ≤ bytes'.length := arg.backed bytes' given'
    obtain ⟨first, sized⟩ := sizeField_write ioFd.enqueueBuffer io.host arg.size
    obtain ⟨rest, restEq⟩ : ∃ rest, rest = (ioFd.enqueueBuffer.write (sizeSource io.host arg.size)).1 :=
      ⟨_, rfl⟩
    have second : (rest.write (arg.source bytes' given')).2 = min arg.size.toNat rest.room :=
      Ring.count_write ..
    have filled : (rest.write (arg.source bytes' given')).1.content =
        rest.content ++ (bytes'.take arg.size.toNat).take rest.room := by
      rw [Ring.content_write, List.take_take, Nat.min_comm]
      rfl
    have width := length_packetLenBytes io.host arg.size
    -- The field has taken its two bytes of the room, or all that there was.
    have left : rest.room = ioFd.enqueueBuffer.room - packetLenSize := by
      rw [restEq, Ring.room_write]
      rfl
    -- Behind a field that is stored whole, the data have the room that is left.
    have stored : rest.content ++ (bytes'.take arg.size.toNat).take rest.room =
        ioFd.enqueueBuffer.content ++ ((StreamCall.push pushType fd arg).stored io.host bytes').take
          ioFd.enqueueBuffer.room := by
      rw [restEq, sized, ← restEq, left, StreamCall.stored, List.take_append, width,
        List.append_assoc]
    rw [if_neg legal, if_neg (by simp [running])]
    simp only [found, ← restEq]
    split_ifs with noField noBody
    · -- Not even the size field fits.
      refine ⟨⟨rest, rfl, ?_⟩, ?_⟩
      · rw [restEq, sized, StreamCall.stored, List.take_append_of_le_length]
        rw [width]
        omega
      · simp only [Bool.false_eq_true, CeIo.Takes, StreamCall.needed, false_iff, not_and]
        intro fits
        omega
    · -- The field fits and the data do not.
      refine ⟨⟨_, by simp [CeIo.setRecord], filled.trans stored⟩, ?_⟩
      rw [second, left] at noBody
      simp only [Bool.false_eq_true, CeIo.Takes, StreamCall.needed, false_iff, not_and]
      intro fits
      omega
    · refine ⟨⟨_, by simp [CeIo.setRecord, CeIo.register], filled.trans stored⟩, ?_⟩
      -- Everything is stored, and the job decides about the result.
      rw [CeIo.register_result]
      rw [second, left, not_not] at noBody
      have room : packetLenSize + arg.size.toNat ≤ ioFd.enqueueBuffer.room := by omega
      exact (and_iff_right room).trans (and_iff_right trivial) |>.symm

/-- So does either of them. -/
theorem ioCall_stores {io : CeIo} {call : StreamCall} {bytes : Bytes} {record : RecordId}
    {ioFd : CeIoFd} (given : call.arg.data = some bytes) (looks : io.LooksUp call)
    (found : io.findIoFd call.fd = some (record, ioFd)) :
    io.Stores call record ioFd bytes (ioCall io call.api).1 (ioCall io call.api).2 := by
  obtain ⟨-, legal, running⟩ := looks
  cases call with
  | enqueue fd arg => exact ceIoEnqueue_stores given legal running found
  | push pushType fd arg => exact ceIoPush_stores pushType given legal running found

/-- A call that finds no connection, or does not come to look for one, changes nothing and fails. -/
theorem ioCall_unfound {io : CeIo} {call : StreamCall}
    (unfound : io.LooksUp call → io.findIoFd call.fd = none) : ioCall io call.api = (io, false) := by
  -- Behind the checks of the source the lookup finds nothing, and before them it is not made.
  have absent : ∀ bytes, call.arg.data = some bytes → ¬ (call.fd ≤ 0 ∨ call.arg.size = 0) →
      ¬ io.stop = true → io.findIoFd call.fd = none := by
    intro bytes given legal running
    exact unfound ⟨Option.ne_none_iff_exists'.mpr ⟨bytes, given⟩, legal, Bool.not_eq_true _ ▸ running⟩
  cases call with
  | enqueue fd arg =>
    simp only [StreamCall.api, ioCall, ceIoEnqueue]
    split
    · rfl
    · rename_i bytes given
      split_ifs with illegal stopped
      · rfl
      · rfl
      · have none_ : io.findIoFd fd = none := absent bytes given illegal stopped
        simp only [none_]
  | push pushType fd arg =>
    simp only [StreamCall.api, ioCall, ceIoPush]
    split
    · rfl
    · rename_i bytes given
      split_ifs with illegal stopped
      · rfl
      · rfl
      · have none_ : io.findIoFd fd = none := absent bytes given illegal stopped
        simp only [none_]

/-- A call that looks its fd up and does not find nothing has found a connection for some data. -/
theorem CeIo.comes_to_connection {io : CeIo} {call : StreamCall}
    (comes : ¬ (io.LooksUp call → io.findIoFd call.fd = none)) :
    io.LooksUp call ∧ ∃ bytes record ioFd, call.arg.data = some bytes ∧
      io.findIoFd call.fd = some (record, ioFd) := by
  rw [Classical.not_imp] at comes
  obtain ⟨looks, there⟩ := comes
  obtain ⟨⟨record, ioFd⟩, found⟩ := Option.ne_none_iff_exists'.mp there
  obtain ⟨bytes, given⟩ := Option.ne_none_iff_exists'.mp looks.1
  exact ⟨looks, bytes, record, ioFd, given, found⟩

/-- A call returns true just when it comes to a connection on which everything succeeds. -/
theorem ioCall_result_iff (io : CeIo) (call : StreamCall) :
    (ioCall io call.api).2 = true ↔ io.LooksUp call ∧
      ∃ record ioFd, io.findIoFd call.fd = some (record, ioFd) ∧ io.Takes call ioFd := by
  by_cases unfound : io.LooksUp call → io.findIoFd call.fd = none
  · -- Nothing was found, so the call has failed, and there is no connection to speak of.
    rw [ioCall_unfound unfound]
    refine iff_of_false (by simp) ?_
    intro both
    obtain ⟨looks, record, ioFd, found, -⟩ := both
    rw [unfound looks] at found
    cases found
  · obtain ⟨looks, bytes, record, ioFd, given, found⟩ := CeIo.comes_to_connection unfound
    -- The connection that was found decides.
    rw [(ioCall_stores given looks found).result, and_iff_right looks]
    constructor
    · intro takes
      exact ⟨record, ioFd, found, takes⟩
    · -- A lookup leads to one connection, so it is the same one.
      intro found'
      obtain ⟨other, otherFd, same, takes⟩ := found'
      obtain ⟨rfl, rfl⟩ := Prod.mk.inj (Option.some.inj (found.symm.trans same))
      exact takes

/-- A call has as many bytes to store as it says. -/
theorem StreamCall.length_stored {call : StreamCall} {bytes : Bytes} (host : ByteOrder)
    (given : call.arg.data = some bytes) : (call.stored host bytes).length = call.needed := by
  have backed := call.arg.backed bytes given
  -- The caller's memory holds as many bytes as the caller says.
  cases call with
  | enqueue fd arg => exact List.length_take_of_le backed
  | push pushType fd arg =>
    have body : (bytes.take arg.size.toNat).length = arg.size.toNat := List.length_take_of_le backed
    rw [stored, List.length_append, length_packetLenBytes, body, needed]

/-- A call that looks its fd up has something to store. -/
theorem CeIo.LooksUp.needed_pos {io : CeIo} {call : StreamCall} (looks : io.LooksUp call) :
    0 < call.needed := by
  obtain ⟨-, legal, -⟩ := looks
  -- A call with size zero is refused before the lookup.
  have positive : 0 < call.arg.size.toNat := by
    refine Nat.pos_of_ne_zero fun zero => legal (.inr ?_)
    exact UInt16.toNat_inj.mp zero
  cases call with
  | enqueue fd arg => exact positive
  | push pushType fd arg => exact Nat.add_pos_right _ positive

/-- A call that has something to store keeps all streams just when it finds no room for a byte. -/
theorem CeIo.Stores.keeps_iff {io next : CeIo} {call : StreamCall} {record : RecordId}
    {ioFd : CeIoFd} {bytes : Bytes} {result : Bool}
    (stores : io.Stores call record ioFd bytes next result) (held : io.records record = some ioFd)
    (some_ : call.stored io.host bytes ≠ []) :
    next.streams = io.streams ↔ ioFd.enqueueBuffer.room = 0 := by
  obtain ⟨buffer, records, content⟩ := stores.filled
  constructor
  · intro same
    -- The stream of the connection is no longer, so nothing was appended to it.
    have stream := congrFun same record
    simp only [CeIo.streams, records, Function.update_self, held, Option.map_some,
      Option.some.injEq, Prod.mk.injEq, and_true, content, List.append_right_eq_self,
      List.take_eq_nil_iff] at stream
    exact stream.resolve_right some_
  · intro full
    rw [full, List.take_zero, List.append_nil] at content
    -- Only the record of the connection was written to, and its streams are the same.
    funext other
    by_cases same : other = record
    · simp [CeIo.streams, records, same, held, content]
    · simp [CeIo.streams, records, same]

/--
A failed call leaves all streams as they were just when it stores all its bytes or none.

It holds for every io, whatever its connections hold and wherever their rings stand.
-/
theorem failureKeepsStreams_iff (io : CeIo) (call : StreamCall) :
    FailureKeepsStreams io call ↔ io.AllOrNothing call := by
  by_cases unfound : io.LooksUp call → io.findIoFd call.fd = none
  · -- Without a connection there is nothing that the call could store anything in.
    refine iff_of_true ?_ ?_
    · intro _
      rw [ioCall_unfound unfound]
    · intro looks record ioFd found
      rw [unfound looks] at found
      cases found
  · obtain ⟨looks, bytes, record, ioFd, given, found⟩ := CeIo.comes_to_connection unfound
    have stores := ioCall_stores given looks found
    have held : io.records record = some ioFd := (CeIo.findIoFd_eq_some_iff.mp found).choose_spec.2.2
    have some_ : call.stored io.host bytes ≠ [] := by
      rw [← List.length_pos_iff, StreamCall.length_stored io.host given]
      exact looks.needed_pos
    have keeps := stores.keeps_iff held some_
    constructor
    · intro whole _ other otherFd same
      obtain ⟨rfl, rfl⟩ := Prod.mk.inj (Option.some.inj (found.symm.trans same))
      by_cases takes : io.Takes call ioFd
      · exact .inr takes
      · -- The call fails, so it has stored nothing, and that is for want of room.
        exact .inl (keeps.mp (whole (Bool.not_eq_true _ ▸ mt stores.result.mp takes)))
    · intro all failed
      have short : ¬ io.Takes call ioFd := mt stores.result.mpr (by simp [failed])
      exact keeps.mpr ((all looks record ioFd found).resolve_right short)

/-- The io of a new connection, whose buffers hold 16 bytes each. -/
def newConnection : CeIo := (ceIoAdd (ceIoNew .little dictTypeInt smallConf) 7).1

/-- Fifteen bytes of data, as a caller passes them. -/
def fifteenBytesArg : PacketArg where
  data := some (List.replicate 15 5)
  size := 15
  backed := by simp

/-- A push that fails for want of one byte leaves its size field and the start of its data behind. -/
theorem not_failureKeepsStreams_short_push :
    ¬ FailureKeepsStreams newConnection (.push .pushFd 7 fifteenBytesArg) := by
  intro keeps
  -- The buffer was empty before, and sixteen bytes stand in it after.
  have stream := congrFun (keeps (by decide)) 0
  exact absurd stream (by decide)

end Cevent
