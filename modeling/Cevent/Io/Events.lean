import Cevent.Io.Capacity
import Cevent.Library.Entries

/-! The bytes of the event ring, and the pointers that pops of eight of them yield. -/

namespace Cevent

open Interleaving Entries

namespace EventRing

/-- `ce_rb_read` of eight bytes, where the loop condition of the processors lets it come to that. -/
def popBytes (events : EventRing) : Option (Bytes × EventRing) :=
  if events.ready then
    some ((events.ring.read uintptrSize).2,
      { ring := (events.ring.read uintptrSize).1
        queued := events.queued.tail
        whole := by
          -- The bytes of one pointer leave, whichever pointer they belong to.
          have held := events.whole
          rw [Ring.content_read, List.length_drop, List.length_tail]
          simp only [uintptrSize] at held ⊢
          omega })
  else none

/-- The ring holds the pointers that were written whole, and a pop yields the first of them. -/
structure Untorn (events : EventRing) : Prop where
  entries : events.ring.content = events.queued.flatMap uintptrBytes
  pops : ∀ bytes next, events.popBytes = some (bytes, next) →
    ∃ record, events.queued.head? = some record ∧ bytes = uintptrBytes record

end EventRing

/-- The call comes to the write of its event: it finds its connection, which has room for its data. -/
def CeIo.WritesEvent (io : CeIo) (fd : Int) (arg : PacketArg) : Prop :=
  io.LooksUp (.enqueue fd arg) ∧ ∃ record ioFd, io.findIoFd fd = some (record, ioFd) ∧
    arg.size.toNat ≤ ioFd.enqueueBuffer.room

/-- What is done to an io and to its event ring. -/
inductive EventAction where
  /-- A call on the io. -/
  | call (api : IoApi)
  /-- A pop of a pointer from the ring that `ce_io_enqueue` writes to. -/
  | pop
  /-- The loop of a processor over the buffers of one record. -/
  | process (record : RecordId) (processor : Processor) (send : Int → Bytes → Int)

/-- An io whose event ring is looked at byte by byte, with the bytes that each pop yields. -/
def eventMachine : Machine CeIo EventAction Bytes where
  step io
    | .call api => some ((ioCall io api).1, [])
    | .pop => io.enqueueFdEvent.popBytes.map fun (bytes, events) =>
        ({ io with enqueueFdEvent := events }, [bytes])
    | .process record processor send => (io.records record).map fun ioFd =>
        (io.afterLoop record (processorLoop io send ioFd processor), [])

/-- If an event is to be written, the ring has no room for a byte of it, or room for all of it. -/
def CeIo.EventFits (io : CeIo) : EventAction → Prop
  | .call (.enqueue fd arg) => io.WritesEvent fd arg →
    io.enqueueFdEvent.ring.room = 0 ∨ uintptrSize ≤ io.enqueueFdEvent.ring.room
  | _ => True

/-- A pointer has the bytes of an `uintptr_t`. -/
@[simp] theorem length_uintptrBytes (record : RecordId) :
    (uintptrBytes record).length = uintptrSize := by
  simp [uintptrBytes]

namespace EventRing

variable {events : EventRing}

/-- The loop condition counts the bytes that wait. -/
theorem ready_iff : events.ready = true ↔ uintptrSize ≤ events.ring.content.length := by
  rw [ready, decide_eq_true_iff, events.ring.canRead_eq]
  exact Int.ofNat_le

/-- A pop takes eight bytes off the front, and the first record with them. -/
theorem popBytes_spec {bytes : Bytes} {next : EventRing}
    (popped : events.popBytes = some (bytes, next)) :
    uintptrSize ≤ events.ring.content.length ∧
      bytes = events.ring.content.take uintptrSize ∧
      next.ring.content = events.ring.content.drop uintptrSize ∧
      next.ring.capacity = events.ring.capacity ∧ next.queued = events.queued.tail := by
  unfold popBytes at popped
  obtain ⟨waits, taken⟩ := Option.ite_none_right_eq_some.mp popped
  cases taken
  exact ⟨ready_iff.mp waits, by simp, by simp, by simp, rfl⟩

/-- While a record is queued, a byte-wise pop and one that goes by the queue leave the same ring. -/
theorem popBytes_of_pop {record : RecordId} {ring : EventRing}
    (first : events.pop = some (record, ring)) : ∃ bytes, events.popBytes = some (bytes, ring) := by
  have held := events.whole
  unfold pop at first
  split at first
  · cases first
  · rename_i record' queued waiting
    obtain ⟨rfl, rfl⟩ := Prod.mk.inj (Option.some.inj first)
    have waits : events.ready = true := by
      rw [ready_iff]
      rw [waiting, List.length_cons] at held
      simp only [uintptrSize] at held ⊢
      omega
    refine ⟨(events.ring.read uintptrSize).2, ?_⟩
    simp only [popBytes, waits, if_true, waiting, List.tail_cons]

/-- A ring that holds just the pointers that were written whole yields these. -/
theorem Untorn.of_entries (entries : events.ring.content = events.queued.flatMap uintptrBytes) :
    events.Untorn where
  entries := entries
  pops := by
    intro bytes next popped
    obtain ⟨waits, rfl, -⟩ := popBytes_spec popped
    rw [entries] at waits ⊢
    exact take_flatMap length_uintptrBytes (by decide) waits

/-- A pop leaves such a ring. -/
theorem Untorn.popped (untorn : events.Untorn) {bytes : Bytes} {next : EventRing}
    (popped : events.popBytes = some (bytes, next)) : next.Untorn := by
  obtain ⟨-, -, content, -, queued⟩ := popBytes_spec popped
  refine .of_entries ?_
  rw [content, queued, untorn.entries]
  exact drop_flatMap length_uintptrBytes events.queued

/-- A pointer is written as far as there is room for it. -/
theorem content_write (events : EventRing) (record : RecordId) :
    (events.write record).1.ring.content =
      events.ring.content ++ (uintptrBytes record).take events.ring.room := by
  have ring : (events.write record).1.ring = (events.ring.write (pointerSource record)).1 := by
    rw [write]
    split <;> rfl
  -- All of the pointer's bytes are passed, so only the room cuts them short.
  rw [ring, Ring.content_write, Nat.min_comm, ← List.take_take]
  rfl

/-- A write of a pointer leaves such a ring just when it takes all of it in or none. -/
theorem Untorn.write_iff (untorn : events.Untorn) (record : RecordId) :
    (events.write record).1.Untorn ↔ events.ring.room = 0 ∨ uintptrSize ≤ events.ring.room := by
  rw [← append_take_iff length_uintptrBytes events.queued record events.ring.room,
    ← untorn.entries, ← content_write]
  -- The record is queued just when its pointer was written whole.
  have queued : (events.write record).1.queued =
      if uintptrSize ≤ events.ring.room then events.queued ++ [record] else events.queued := by
    simp only [write_queued, write_whole_iff]
  rw [← queued]
  exact ⟨fun after => after.entries, .of_entries⟩

end EventRing

/-- `ce_io_enqueue` writes to the event ring the pointer of the record it has found, or nothing. -/
theorem ceIoEnqueue_enqueueFdEvent (io : CeIo) (fd : Int) (arg : PacketArg) :
    (¬ io.WritesEvent fd arg ∧ (ceIoEnqueue io fd arg).1.enqueueFdEvent = io.enqueueFdEvent) ∨
      (io.WritesEvent fd arg ∧ ∃ record,
        (ceIoEnqueue io fd arg).1.enqueueFdEvent = (io.enqueueFdEvent.write record).1) := by
  by_cases unfound : io.LooksUp (.enqueue fd arg) → io.findIoFd fd = none
  · -- The call returns before it comes to a connection.
    have same : ioCall io (StreamCall.enqueue fd arg).api = (io, false) := ioCall_unfound unfound
    replace same : ceIoEnqueue io fd arg = (io, false) := same
    refine .inl ⟨?_, by rw [same]⟩
    rintro ⟨looks, record, ioFd, found, -⟩
    rw [unfound looks] at found
    cases found
  · obtain ⟨looks, bytes, record, ioFd, given, found⟩ := CeIo.comes_to_connection unfound
    have found : io.findIoFd fd = some (record, ioFd) := found
    have legal : ¬ (fd ≤ 0 ∨ arg.size = 0) := looks.2.1
    unfold ceIoEnqueue
    split
    · rename_i absent
      exact absurd (given.symm.trans absent) (by simp)
    · rename_i bytes' given'
      have count : (ioFd.enqueueBuffer.write (arg.source bytes' given')).2 =
          min arg.size.toNat ioFd.enqueueBuffer.room := Ring.count_write ..
      rw [if_neg legal, if_neg (by simp [looks.2.2])]
      simp only [found]
      by_cases short : (ioFd.enqueueBuffer.write (arg.source bytes' given')).2 ≠ arg.size.toNat
      · rw [if_pos short]
        refine .inl ⟨?_, rfl⟩
        rintro ⟨-, other, otherFd, same, fits⟩
        obtain ⟨rfl, rfl⟩ := Prod.mk.inj (Option.some.inj (same.symm.trans found))
        rw [count] at short
        omega
      · rw [if_neg short]
        refine .inr ⟨⟨looks, record, ioFd, found, ?_⟩, record, ?_⟩
        · rw [count] at short
          omega
        · split_ifs <;> rfl

/-- No other call writes to the event ring. -/
theorem ioCall_enqueueFdEvent {io : CeIo} {api : IoApi}
    (other : ∀ fd arg, api ≠ .enqueue fd arg) :
    (ioCall io api).1.enqueueFdEvent = io.enqueueFdEvent := by
  cases api with
  | add fd =>
    rcases ceIoAdd_cases io fd with ⟨-, refused⟩ | ⟨-, -, added⟩
    · rw [ioCall, refused]
    · rw [ioCall, added]
      rfl
  | enqueue fd arg => exact absurd rfl (other fd arg)
  | push pushType fd arg => exact ceIoPush_enqueueFdEvent io pushType fd arg
  | del fd => exact (ceIoDel_deletes io fd).enqueueFdEvent

/-- A step leaves an untorn ring untorn just when it has room for all of an event or for none. -/
theorem eventMachine_untorn_iff {io next : CeIo} {action : EventAction} {popped : List Bytes}
    (untorn : io.enqueueFdEvent.Untorn)
    (taken : eventMachine.step io action = some (next, popped)) :
    next.enqueueFdEvent.Untorn ↔ io.EventFits action := by
  cases action with
  | call api =>
    obtain ⟨rfl, -⟩ := Prod.mk.inj (Option.some.inj taken)
    cases api with
    -- Only this call writes an event.
    | enqueue fd arg =>
      rcases ceIoEnqueue_enqueueFdEvent io fd arg with ⟨none_, same⟩ | ⟨writes, record, written⟩
      · rw [ioCall, same]
        exact iff_of_true untorn fun writes => absurd writes none_
      · rw [ioCall, written, untorn.write_iff]
        exact ⟨fun fits _ => fits, fun fits => fits writes⟩
    | add | push | del =>
      rw [ioCall_enqueueFdEvent (by simp)]
      exact iff_of_true untorn trivial
  | pop =>
    obtain ⟨⟨bytes, events⟩, popped', nextEq⟩ := Option.map_eq_some_iff.mp taken
    obtain ⟨rfl, -⟩ := Prod.mk.inj nextEq
    exact iff_of_true (untorn.popped popped') trivial
  | process record processor send =>
    obtain ⟨ioFd, -, nextEq⟩ := Option.map_eq_some_iff.mp taken
    obtain ⟨rfl, -⟩ := Prod.mk.inj nextEq
    rw [(io.afterLoop_deletes record _).enqueueFdEvent]
    exact iff_of_true untorn trivial

/-- Every step keeps the ring as large as the configuration says. -/
theorem eventMachine_runsWith {conf : CeConf} {type : DictType Int} {io next : CeIo}
    {action : EventAction} {popped : List Bytes} (runs : io.RunsWith conf type)
    (taken : eventMachine.step io action = some (next, popped)) : next.RunsWith conf type := by
  cases action with
  | call api =>
    obtain ⟨rfl, -⟩ := Prod.mk.inj (Option.some.inj taken)
    exact runs.call api
  | pop =>
    obtain ⟨⟨bytes, events⟩, popped', nextEq⟩ := Option.map_eq_some_iff.mp taken
    obtain ⟨rfl, -⟩ := Prod.mk.inj nextEq
    have size := (EventRing.popBytes_spec popped').2.2.2.1.trans runs.events
    exact ⟨runs.configured, runs.typed, runs.running, runs.alive, size, runs.buffers⟩
  | process record processor send =>
    obtain ⟨ioFd, held, nextEq⟩ := Option.map_eq_some_iff.mp taken
    obtain ⟨rfl, -⟩ := Prod.mk.inj nextEq
    exact runs.afterLoop send held processor

/-- In an untorn ring of a multiple of eight bytes, an event never finds room for a part of it. -/
theorem EventRing.Untorn.room {events : EventRing} (untorn : events.Untorn)
    (pointers : uintptrSize ∣ events.ring.capacity) :
    events.ring.room = 0 ∨ uintptrSize ≤ events.ring.room := by
  obtain ⟨count, size⟩ := pointers
  have length := length_flatMap length_uintptrBytes events.queued
  rw [Ring.room, untorn.entries, length, size]
  simp only [uintptrSize]
  omega

/-- So in such a ring every event fits, whatever is called. -/
theorem eventFits_of_pointers {conf : CeConf} {type : DictType Int} {io : CeIo}
    (pointers : (uintptrSize : Int) ∣ conf.perCacheRingbufferSize) (runs : io.RunsWith conf type)
    (untorn : io.enqueueFdEvent.Untorn) (action : EventAction) : io.EventFits action := by
  have size : uintptrSize ∣ io.enqueueFdEvent.ring.capacity := by
    rw [runs.events]
    have positive := conf.ringPositive
    simp only [uintptrSize] at pointers ⊢
    omega
  unfold CeIo.EventFits
  split
  · exact fun _ => untorn.room size
  · trivial

/--
The event ring is untorn all along a run just when each event finds room for all of it or for none.

Where the configured size is a multiple of eight, that is so in every run.
-/
theorem eventRing_untorn_iff (host : ByteOrder) (type : DictType Int) (conf : CeConf)
    (actions : List EventAction) (last : CeIo) (popped : List Bytes)
    (ran : eventMachine.exec (ceIoNew host type conf) actions = some (last, popped)) :
    (eventMachine.Along (·.enqueueFdEvent.Untorn) (ceIoNew host type conf) actions ↔
      eventMachine.Meets CeIo.EventFits (ceIoNew host type conf) actions) ∧
    ((uintptrSize : Int) ∣ conf.perCacheRingbufferSize →
      eventMachine.Meets CeIo.EventFits (ceIoNew host type conf) actions) := by
  have fresh : (ceIoNew host type conf).enqueueFdEvent.Untorn := .of_entries
    (Ring.content_new conf.perCacheRingbufferSize conf.ringPositive)
  refine ⟨?_, fun pointers => ?_⟩
  · exact eventMachine.exec_along_iff_meets (fun _ => True) (·.enqueueFdEvent.Untorn) trivial fresh
      (fun _ _ _ _ _ _ => trivial) (fun _ _ _ _ _ untorn taken => eventMachine_untorn_iff untorn taken)
      ran
  · -- Each step leads to an untorn ring of the same size, where the next one fits again.
    refine eventMachine.meets_of_invariant
      (fun io => io.RunsWith conf type ∧ io.enqueueFdEvent.Untorn) ⟨.new host type conf, fresh⟩ ?_ ?_
      actions
    · rintro io action next events ⟨runs, untorn⟩ taken
      exact ⟨eventMachine_runsWith runs taken, (eventMachine_untorn_iff untorn taken).mpr
        (eventFits_of_pointers pointers runs untorn action)⟩
    · rintro io action ⟨runs, untorn⟩
      exact eventFits_of_pointers pointers runs untorn action

/-- Two connections, two events for one of them, a pop, and one more event and pop. -/
def eventThrice : List EventAction :=
  [.call (.add 7), .call (.add 8), .call (.enqueue 8 oneByteArg), .call (.enqueue 8 oneByteArg),
    .pop, .call (.enqueue 8 oneByteArg), .pop]

/-- In a ring of sixteen bytes both events are held whole, and the pops yield them. -/
theorem eventRing_untorn_sixteen :
    eventMachine.Along (·.enqueueFdEvent.Untorn) (ceIoNew .little dictTypeInt smallConf)
      eventThrice := by
  obtain ⟨⟨last, popped⟩, ran⟩ := Option.isSome_iff_exists.mp
    (by rfl : (eventMachine.exec (ceIoNew .little dictTypeInt smallConf) eventThrice).isSome)
  have both := eventRing_untorn_iff .little dictTypeInt smallConf eventThrice last popped ran
  exact both.1.mpr (both.2 (by decide))

/-- A configuration whose rings hold one pointer and a half. -/
def twelveConf : CeConf where
  perMaxPacketBodySize := 5
  perCacheRingbufferSize := 12
  bodyPositive := by decide
  ringPositive := by decide
  bodyFits := by decide

/-- There a pop yields half of one entry and half of the next. -/
theorem not_eventRing_untorn_twelve : ∃ last,
    eventMachine.exec (ceIoNew .little dictTypeInt twelveConf) eventThrice =
      some (last, [[1, 0, 0, 0, 0, 0, 0, 0], [1, 0, 0, 0, 1, 0, 0, 0]]) ∧
    ¬ eventMachine.Along (·.enqueueFdEvent.Untorn) (ceIoNew .little dictTypeInt twelveConf)
      eventThrice := by
  refine ⟨_, rfl, ?_⟩
  intro along
  -- Half a pointer is left in the ring, and no record is queued.
  have entries := (along.last rfl).entries
  exact absurd entries (by decide)

end Cevent
