import Cevent.Io.HandOff
import Cevent.Io.Sending
import Cevent.Io.Stream
import Cevent.Io.Streams
import Cevent.Io.Teardown

/-! What a connection with empty buffers takes in, from the size that all rings of an io have. -/

namespace Cevent

open Interleaving

/-- An io that runs with a configuration, and whose rings are as large as it says. -/
structure CeIo.RunsWith (conf : CeConf) (type : DictType Int) (io : CeIo) : Prop where
  configured : io.conf = conf
  typed : io.ioDict.type = type
  running : io.stop = false
  alive : io.workers.abort = false
  events : io.enqueueFdEvent.ring.capacity = conf.perCacheRingbufferSize.toNat
  buffers : ∀ record ioFd, io.records record = some ioFd →
    ioFd.enqueueBuffer.capacity = conf.perCacheRingbufferSize.toNat

/-- A pointer that is written leaves the ring as large as it is. -/
@[simp] theorem EventRing.capacity_write (events : EventRing) (record : RecordId) :
    (events.write record).1.ring.capacity = events.ring.capacity := by
  unfold EventRing.write
  split <;> exact Ring.capacity_write ..

/-- So does a pointer that is popped. -/
theorem EventRing.capacity_pop {events ring : EventRing} {record : RecordId}
    (first : events.pop = some (record, ring)) : ring.ring.capacity = events.ring.capacity := by
  unfold EventRing.pop at first
  split at first
  · cases first
  · cases first
    exact Ring.capacity_read ..

namespace CeIo.RunsWith

variable {conf : CeConf} {type : DictType Int} {io : CeIo}

/-- `ce_io_new` makes such an io. -/
theorem new (host : ByteOrder) (type : DictType Int) (conf : CeConf) :
    CeIo.RunsWith conf type (ceIoNew host type conf) where
  configured := rfl
  typed := rfl
  running := rfl
  alive := rfl
  events := rfl
  buffers record ioFd held := by cases held

/-- A record may be given any content with an enqueue buffer of that size. -/
theorem setRecord (runs : io.RunsWith conf type) (record : RecordId) {ioFd : CeIoFd}
    (size : ioFd.enqueueBuffer.capacity = conf.perCacheRingbufferSize.toNat) :
    (io.setRecord record ioFd).RunsWith conf type where
  configured := runs.configured
  typed := runs.typed
  running := runs.running
  alive := runs.alive
  events := runs.events
  buffers other content held := by
    -- The record itself has the given content, and the others what they had.
    by_cases same : other = record
    · rw [same, CeIo.records_setRecord_self] at held
      cases held
      exact size
    · rw [CeIo.records_setRecord_of_ne _ _ same] at held
      exact runs.buffers other content held

/-- A record that was found has a buffer of that size. -/
theorem found (runs : io.RunsWith conf type) {fd : Int} {record : RecordId} {ioFd : CeIoFd}
    (found : io.findIoFd fd = some (record, ioFd)) :
    ioFd.enqueueBuffer.capacity = conf.perCacheRingbufferSize.toNat := by
  obtain ⟨entry, -, -, held⟩ := CeIo.findIoFd_eq_some_iff.mp found
  exact runs.buffers record ioFd held

/-- A job may be handed to the pool. -/
theorem register (runs : io.RunsWith conf type) (item : WorkItem) :
    (io.register item).1.RunsWith conf type where
  configured := runs.configured
  typed := runs.typed
  running := runs.running
  alive := by
    simp only [CeIo.register, ceTpWorkerRegister]
    split <;> exact runs.alive
  events := runs.events
  buffers := runs.buffers

/-- An event may be queued. -/
theorem queue (runs : io.RunsWith conf type) (record : RecordId) :
    CeIo.RunsWith conf type { io with enqueueFdEvent := (io.enqueueFdEvent.write record).1 } where
  configured := runs.configured
  typed := runs.typed
  running := runs.running
  alive := runs.alive
  events := (EventRing.capacity_write ..).trans runs.events
  buffers := runs.buffers

/-- What `ce_io_del` does keeps it. -/
theorem deletes (runs : io.RunsWith conf type) {next : CeIo} (deletes : io.Deletes next) :
    next.RunsWith conf type where
  configured := deletes.conf.trans runs.configured
  typed := deletes.type.trans runs.typed
  running := deletes.stop.trans runs.running
  alive := deletes.abort.trans runs.alive
  events := deletes.enqueueFdEvent ▸ runs.events
  buffers record ioFd held := runs.buffers record ioFd (deletes.records ▸ held)

/-- `ce_io_add` keeps it. -/
theorem add (runs : io.RunsWith conf type) (fd : Int) : (ceIoAdd io fd).1.RunsWith conf type := by
  rcases ceIoAdd_cases io fd with ⟨-, refused⟩ | ⟨-, -, added⟩
  · rw [refused]
    exact runs
  · rw [added]
    -- The new record gets a buffer of the size in the configuration.
    let ioFd := newIoFd fd io.conf.perCacheRingbufferSize io.conf.ringPositive
    have size : ioFd.enqueueBuffer.capacity = conf.perCacheRingbufferSize.toNat := by
      rw [← runs.configured]
      rfl
    have set := runs.setRecord io.allocated size
    exact ⟨set.configured, set.typed, set.running, set.alive, set.events, set.buffers⟩

/-- `ce_io_enqueue` keeps it. -/
theorem enqueue (runs : io.RunsWith conf type) (fd : Int) (arg : PacketArg) :
    (ceIoEnqueue io fd arg).1.RunsWith conf type := by
  unfold ceIoEnqueue
  split
  · exact runs
  · split_ifs
    · exact runs
    · exact runs
    · split
      · exact runs
      · rename_i record ioFd found
        have size := runs.found found
        have filled (source : RbSource) : (ioFd.enqueueBuffer.write source).1.capacity =
            conf.perCacheRingbufferSize.toNat := (Ring.capacity_write ..).trans size
        dsimp only
        -- What is written to the buffer or queued leaves the capacities as they are.
        split_ifs
        · exact runs.setRecord record (filled _)
        · exact ((runs.setRecord record (filled _)).queue record).register _
        · exact (runs.setRecord record (filled _)).queue record

/-- `ce_io_push` keeps it. -/
theorem push (runs : io.RunsWith conf type) (pushType : CePushType) (fd : Int) (arg : PacketArg) :
    (ceIoPush io pushType fd arg).1.RunsWith conf type := by
  unfold ceIoPush
  split
  · exact runs
  · split_ifs
    · exact runs
    · exact runs
    · split
      · exact runs
      · rename_i record ioFd found
        have size := runs.found found
        -- The second write goes to the ring that the first one has left.
        have sized (source : RbSource) : (ioFd.enqueueBuffer.write source).1.capacity =
            conf.perCacheRingbufferSize.toNat := (Ring.capacity_write ..).trans size
        have filled (source source' : RbSource) :
            ((ioFd.enqueueBuffer.write source).1.write source').1.capacity =
              conf.perCacheRingbufferSize.toNat := (Ring.capacity_write ..).trans (sized source)
        dsimp only
        split_ifs
        · exact runs.setRecord record (sized _)
        · exact (runs.setRecord record (sized _)).setRecord record (filled _ _)
        · exact ((runs.setRecord record (sized _)).setRecord record (filled _ _)).register _

/-- Every call keeps it. -/
theorem call (runs : io.RunsWith conf type) (api : IoApi) :
    (ioCall io api).1.RunsWith conf type := by
  cases api with
  | add fd => exact runs.add fd
  | enqueue fd arg => exact runs.enqueue fd arg
  | push pushType fd arg => exact runs.push pushType fd arg
  | del fd => exact runs.deletes (ceIoDel_deletes io fd)

/-- The loop of a processor keeps it, since it only reads from the enqueue buffer. -/
theorem afterLoop (runs : io.RunsWith conf type) (send : Int → Bytes → Int) {record : RecordId}
    {ioFd : CeIoFd} (held : io.records record = some ioFd) (processor : Processor) :
    (io.afterLoop record (processorLoop io send ioFd processor)).RunsWith conf type := by
  have same : (processorLoop io send ioFd processor).state.enqueueBuffer.capacity =
      ioFd.enqueueBuffer.capacity := by
    cases processor with
    -- The parser reads the buffer, and the push loop does not touch it.
    | enqueue => exact (enqueueLoop_parse io.host io.conf.perMaxPacketBodySize ioFd).2.2.2.2.2
    | push => exact congrArg Ring.capacity (pushLoop_keeps send ioFd).2.1
  have set := runs.setRecord record (same.trans (runs.buffers record ioFd held))
  exact set.deletes (io.afterLoop_deletes record _)

/-- A pointer that is popped leaves both event rings as large as they are. -/
theorem popped (runs : io.RunsWith conf type) (drain : FdEvent) {record : RecordId}
    {ring : EventRing} (first : (io.events drain).pop = some (record, ring)) :
    (io.setEvents ring drain).RunsWith conf type := by
  cases drain with
  | enqueue =>
    have size := (EventRing.capacity_pop first).trans runs.events
    exact ⟨runs.configured, runs.typed, runs.running, runs.alive, size, runs.buffers⟩
  | push =>
    exact ⟨runs.configured, runs.typed, runs.running, runs.alive, runs.events, runs.buffers⟩

/-- Every step keeps it. -/
theorem step {n : Nat} {drains : Processor → FdEvent} {sys next : IoSystem n}
    {action : IoAction n} {events : List IoEvent} (runs : sys.io.RunsWith conf type)
    (taken : (ioMachine n drains).step sys action = some (next, events)) :
    next.io.RunsWith conf type := by
  cases action with
  | call api =>
    obtain ⟨rfl, -⟩ := ioMachine_call taken
    exact runs.call api
  | work worker send =>
    cases IoSystem.work_move taken with
    | take item others place first =>
      exact ⟨runs.configured, runs.typed, runs.running, runs.alive, runs.events, runs.buffers⟩
    | pop processor record ring place first => exact runs.popped (drains processor) first
    | loop processor record ioFd place held => exact runs.afterLoop send held processor
    | leave | lock | unlock => exact runs
    | freeEnqueueBuffer | freePushBuffer =>
      exact ⟨runs.configured, runs.typed, runs.running, runs.alive, runs.events, runs.buffers⟩
    -- A record that is freed has no buffer left to speak of.
    | freeRecord record place =>
      refine ⟨runs.configured, runs.typed, runs.running, runs.alive, runs.events, ?_⟩
      intro other content held
      by_cases same : other = record
      · simp [same] at held
      · exact runs.buffers other content (by simpa [same] using held)

/-- It holds after every run of an io that was made with the configuration. -/
theorem reached {n : Nat} {drains : Processor → FdEvent} {host : ByteOrder} {type : DictType Int}
    {actions : List (IoAction n)} {last : IoSystem n} {trace : List IoEvent}
    (ran : (ioMachine n drains).exec (IoSystem.atRest n (ceIoNew host type conf)) actions =
      some (last, trace)) : last.io.RunsWith conf type :=
  (ioMachine n drains).exec_invariant (fun sys _ => sys.io.RunsWith conf type) (new host type conf)
    (fun _ _ _ _ _ runs taken => runs.step taken) ran

end CeIo.RunsWith

/-- A lookup of an fd that was just added leads to its record, when its key is the same as itself. -/
theorem findIoFd_withAdded {io : CeIo} {fd : Int} (absent : dictFind io.ioDict fd = none)
    (itself : io.ioDict.type.sameKey fd fd = true) :
    (io.withAdded fd).findIoFd fd = some (io.allocated,
      newIoFd fd io.conf.perCacheRingbufferSize io.conf.ringPositive) := by
  refine CeIo.findIoFd_eq_some_iff.mpr ⟨{ key := fd, val := io.allocated }, ?_, rfl, ?_⟩
  · -- The entries before it do not match, and the new one does.
    have none_ : io.ioDict.entries.find? (io.ioDict.type.sameKey fd ·.key) = none := absent
    change (io.ioDict.entries ++ _).find? (io.ioDict.type.sameKey fd ·.key) = _
    rw [List.find?_append, none_, Option.none_or, List.find?_singleton, if_pos itself]
  · -- What it leads to is the record that was made with it.
    exact io.records_withAdded_self fd

/-- A ring without content has room for as many bytes as it holds at most. -/
theorem Ring.room_of_empty {ring : Ring} (empty : ring.content = []) :
    ring.room = ring.capacity := by
  rw [Ring.room, empty, List.length_nil, Nat.sub_zero]

/-- On a running io, a call that finds its connection succeeds just when there is room for it. -/
theorem ioCall_found_iff {conf : CeConf} {type : DictType Int} {io : CeIo}
    (runs : io.RunsWith conf type) (call : StreamCall) {bytes : Bytes} {record : RecordId}
    {ioFd : CeIoFd} (given : call.arg.data = some bytes) (nonempty : 1 ≤ call.arg.size.toNat)
    (found : io.findIoFd call.fd = some (record, ioFd)) :
    (ioCall io call.api).2 = true ↔
      0 < call.fd ∧ call.needed ≤ ioFd.enqueueBuffer.room ∧ call.EventFits io := by
  have some_ : call.arg.size ≠ 0 := by
    intro zero
    rw [zero] at nonempty
    cases nonempty
  rw [ioCall_result_iff]
  constructor
  · rintro ⟨looks, other, otherFd, same, takes⟩
    -- The lookup of the call finds the same connection.
    obtain ⟨rfl, rfl⟩ := Prod.mk.inj (Option.some.inj (found.symm.trans same))
    exact ⟨by have := looks.2.1; omega, takes.1, takes.2.1⟩
  · rintro ⟨legal, room, event⟩
    have looks : ¬ (call.fd ≤ 0 ∨ call.arg.size = 0) :=
      not_or.mpr ⟨Int.not_le.mpr legal, some_⟩
    exact ⟨⟨by simp [given], looks, runs.running⟩, record, ioFd, found, room, event, runs.alive⟩

/-- A push to a connection that was just added has the whole buffer for its frame. -/
theorem ceIoPush_added_iff {conf : CeConf} {type : DictType Int} {io : CeIo}
    (runs : io.RunsWith conf type) (refl : ∀ key, type.sameKey key key = true) {fd : Int}
    (added : (ceIoAdd io fd).2 = true) (pushType : CePushType) {arg : PacketArg} {bytes : Bytes}
    (given : arg.data = some bytes) (nonempty : 1 ≤ arg.size.toNat) :
    (ceIoPush (ceIoAdd io fd).1 pushType fd arg).2 = true ↔
      0 < fd ∧ (packetLenSize + arg.size.toNat : Nat) ≤ conf.perCacheRingbufferSize := by
  have after := runs.add fd
  rcases ceIoAdd_cases io fd with ⟨-, refused⟩ | ⟨-, absent, taken⟩
  · rw [refused] at added
    cases added
  · rw [taken] at after ⊢
    have found := findIoFd_withAdded absent (by rw [runs.typed]; exact refl fd)
    let ioFd := newIoFd fd io.conf.perCacheRingbufferSize io.conf.ringPositive
    -- Nothing has been written to the buffer since it was made.
    have room : ioFd.enqueueBuffer.room = conf.perCacheRingbufferSize.toNat :=
      (Ring.room_of_empty (Ring.content_new _ io.conf.ringPositive)).trans (after.found found)
    have result : (ceIoPush (io.withAdded fd) pushType fd arg).2 = true ↔ _ :=
      ioCall_found_iff after (.push pushType fd arg) given nonempty found
    have positive := conf.ringPositive
    rw [result, room]
    simp only [StreamCall.fd, StreamCall.needed, StreamCall.EventFits, and_true]
    omega

/-- A chunk is stored whole, its event is queued, and the call returns true. -/
structure EnqueuesWhole (io : CeIo) (record : RecordId) (fd : Int) (arg : PacketArg)
    (bytes : Bytes) : Prop where
  result : (ceIoEnqueue io fd arg).2 = true
  stored : ((ceIoEnqueue io fd arg).1.records record).map (·.enqueueBuffer.content) =
    some (bytes.take arg.size.toNat)
  queued : (ceIoEnqueue io fd arg).1.enqueueFdEvent.queued = [record]

/-- An enqueue to a connection with empty buffers has all of them for its chunk and its event. -/
theorem enqueuesWhole_iff {conf : CeConf} {type : DictType Int} {io : CeIo}
    (runs : io.RunsWith conf type) {fd : Int} {record : RecordId} {ioFd : CeIoFd}
    (found : io.findIoFd fd = some (record, ioFd)) (empty : ioFd.enqueueBuffer.content = [])
    (noEvents : io.enqueueFdEvent.ring.content = []) {arg : PacketArg} {bytes : Bytes}
    (given : arg.data = some bytes) (nonempty : 1 ≤ arg.size.toNat) :
    EnqueuesWhole io record fd arg bytes ↔
      0 < fd ∧ (arg.size.toNat : Int) ≤ conf.perCacheRingbufferSize ∧
        (uintptrSize : Int) ≤ conf.perCacheRingbufferSize := by
  have room : ioFd.enqueueBuffer.room = conf.perCacheRingbufferSize.toNat :=
    (Ring.room_of_empty empty).trans (runs.found found)
  have eventRoom : io.enqueueFdEvent.ring.room = conf.perCacheRingbufferSize.toNat :=
    (Ring.room_of_empty noEvents).trans runs.events
  have result : (ceIoEnqueue io fd arg).2 = true ↔
      0 < fd ∧ arg.size.toNat ≤ conf.perCacheRingbufferSize.toNat ∧
        uintptrSize ≤ conf.perCacheRingbufferSize.toNat := by
    have there := ioCall_found_iff runs (.enqueue fd arg) given nonempty found
    simp only [StreamCall.EventFits, eventRoom, room] at there
    exact there
  have positive := conf.ringPositive
  constructor
  · intro whole
    have fits := result.mp whole.result
    omega
  · intro fits
    have succeeds : (ceIoEnqueue io fd arg).2 = true := result.mpr (by omega)
    obtain ⟨looks, -⟩ := (ioCall_result_iff io (.enqueue fd arg)).mp succeeds
    refine ⟨succeeds, ?_, ?_⟩
    · have stores : io.Stores (.enqueue fd arg) record ioFd bytes (ceIoEnqueue io fd arg).1
          (ceIoEnqueue io fd arg).2 := ceIoEnqueue_stores given looks.2.1 runs.running found
      -- With room for all of it, what is stored is the chunk.
      obtain ⟨buffer, records, content⟩ := stores.filled
      rw [records, Function.update_self, Option.map_some, content, empty, List.nil_append]
      congr 1
      exact List.take_of_length_le (by simp [StreamCall.stored, room]; omega)
    · rcases ceIoEnqueue_queued runs.alive fd arg with ⟨failed, -⟩ |
        ⟨-, other, otherFd, same, grown⟩
      · rw [failed] at succeeds
        cases succeeds
      · obtain ⟨rfl, -⟩ := Prod.mk.inj (Option.some.inj (found.symm.trans same))
        -- An event ring without bytes has no pointer in it.
        have none_ : io.enqueueFdEvent.queued = [] := by
          have held := io.enqueueFdEvent.whole
          rw [noEvents, List.length_nil] at held
          exact List.length_eq_zero_iff.mp (by simp only [uintptrSize] at held; omega)
        rw [grown, none_, List.nil_append]

end Cevent
