import Cevent.Io.Io

/-! What the calls on an io can change, and what they leave alone. -/

namespace Cevent

namespace CeIo

/-- A record that was set has the content it was given. -/
@[simp] theorem records_setRecord_self (io : CeIo) (record : RecordId) (ioFd : CeIoFd) :
    (io.setRecord record ioFd).records record = some ioFd :=
  Function.update_self ..

/-- The other records are not touched. -/
@[simp] theorem records_setRecord_of_ne (io : CeIo) {record other : RecordId} (ioFd : CeIoFd)
    (apart : other ≠ record) : (io.setRecord record ioFd).records other = io.records other :=
  Function.update_of_ne apart ..

/-- A record that is set again is allocated as before, and so are the others. -/
theorem isSome_setRecord {io : CeIo} {record : RecordId} {ioFd : CeIoFd}
    (held : io.records record = some ioFd) (content : CeIoFd) (other : RecordId) :
    ((io.setRecord record content).records other).isSome = (io.records other).isSome := by
  by_cases same : other = record
  · rw [same, records_setRecord_self, held]
    rfl
  · rw [records_setRecord_of_ne _ _ same]

/-- A lookup that succeeds found an entry whose record is allocated. -/
theorem findIoFd_eq_some_iff {io : CeIo} {fd : Int} {record : RecordId} {ioFd : CeIoFd} :
    io.findIoFd fd = some (record, ioFd) ↔
      ∃ entry, dictFind io.ioDict fd = some entry ∧ entry.val = record ∧
        io.records record = some ioFd := by
  -- A registered fd may still lead to a record that is gone, and then the lookup fails.
  simp only [findIoFd, Option.bind_eq_some_iff, Option.map_eq_some_iff, Prod.mk.injEq]
  constructor
  · rintro ⟨entry, found, held, content, rfl, rfl⟩
    exact ⟨entry, found, rfl, content⟩
  · rintro ⟨entry, found, rfl, content⟩
    exact ⟨entry, found, ioFd, content, rfl, rfl⟩

/--
What a call that writes to a connection can do to an io.

It fills the connection's enqueue buffer, queues its record, and hands the pool an enqueue processor.
-/
structure Writes (io : CeIo) (fd : Int) (next : CeIo) : Prop where
  host : next.host = io.host
  conf : next.conf = io.conf
  ioDict : next.ioDict = io.ioDict
  allocated : next.allocated = io.allocated
  stop : next.stop = io.stop
  abort : next.workers.abort = io.workers.abort
  pushFdEvent : next.pushFdEvent = io.pushFdEvent
  rings : next.rings = io.rings
  records : ∀ record, next.records record = io.records record ∨
    ∃ ioFd enqueueBuffer, io.findIoFd fd = some (record, ioFd) ∧
      next.records record = some { ioFd with enqueueBuffer := enqueueBuffer }
  events : ∃ more, next.enqueueFdEvent.queued = io.enqueueFdEvent.queued ++ more ∧
    ∀ record ∈ more, ∃ ioFd, io.findIoFd fd = some (record, ioFd)
  jobs : ∃ more, next.workers.workerQueue = io.workers.workerQueue ++ more ∧
    ∀ item ∈ more, item = WorkItem.enqueueProcessor

/-- Doing nothing is within what a write can do. -/
theorem Writes.refl (io : CeIo) (fd : Int) : io.Writes fd io where
  host := rfl
  conf := rfl
  ioDict := rfl
  allocated := rfl
  stop := rfl
  abort := rfl
  pushFdEvent := rfl
  rings := rfl
  records := fun _ => .inl rfl
  events := ⟨[], by simp⟩
  jobs := ⟨[], by simp⟩

/-- Only the buffer of the connection's record is filled. -/
theorem Writes.fill {io : CeIo} {fd : Int} {record : RecordId} {ioFd : CeIoFd}
    (found : io.findIoFd fd = some (record, ioFd)) (enqueueBuffer : Ring) :
    io.Writes fd (io.setRecord record { ioFd with enqueueBuffer := enqueueBuffer }) where
  host := rfl
  conf := rfl
  ioDict := rfl
  allocated := rfl
  stop := rfl
  abort := rfl
  pushFdEvent := rfl
  rings := rfl
  records := by
    intro other
    -- The lookup has led to this record, and no other one is set.
    by_cases same : other = record
    · subst same
      exact .inr ⟨ioFd, enqueueBuffer, found, records_setRecord_self ..⟩
    · exact .inl (records_setRecord_of_ne _ _ same)
  events := ⟨[], by simp [setRecord]⟩
  jobs := ⟨[], by simp [setRecord]⟩

end CeIo

/-- A write to an event ring queues the record or changes nothing but bytes. -/
theorem EventRing.write_queued (events : EventRing) (record : RecordId) :
    (events.write record).1.queued =
      if (events.write record).2 then events.queued ++ [record] else events.queued := by
  -- The two branches differ in whether the whole pointer was written.
  rw [EventRing.write]
  split <;> rfl

namespace CeIo

/-- After a fill, the record may be queued. -/
theorem Writes.queue {io next : CeIo} {fd : Int} {record : RecordId} {ioFd : CeIoFd}
    (writes : io.Writes fd next) (same : next.enqueueFdEvent = io.enqueueFdEvent)
    (found : io.findIoFd fd = some (record, ioFd)) :
    io.Writes fd { next with enqueueFdEvent := (next.enqueueFdEvent.write record).1 } where
  host := writes.host
  conf := writes.conf
  ioDict := writes.ioDict
  allocated := writes.allocated
  stop := writes.stop
  abort := writes.abort
  pushFdEvent := writes.pushFdEvent
  rings := writes.rings
  records := writes.records
  events := by
    rw [same]
    simp only [EventRing.write_queued]
    -- The record is the one that the lookup has led to.
    by_cases whole : (io.enqueueFdEvent.write record).2
    · exact ⟨[record], by simp [whole], by simpa using ⟨ioFd, found⟩⟩
    · exact ⟨[], by simp [whole], by simp⟩
  jobs := writes.jobs

/-- At the end, an enqueue processor may be registered. -/
theorem Writes.register {io next : CeIo} {fd : Int} (writes : io.Writes fd next)
    (same : next.workers = io.workers) : io.Writes fd (next.register .enqueueProcessor).1 where
  host := writes.host
  conf := writes.conf
  ioDict := writes.ioDict
  allocated := writes.allocated
  stop := writes.stop
  abort := by
    simp only [CeIo.register, ceTpWorkerRegister, same]
    -- A pool that is being destroyed takes no job, and else the job joins the end.
    split <;> rfl
  pushFdEvent := writes.pushFdEvent
  rings := writes.rings
  records := writes.records
  events := writes.events
  jobs := by
    simp only [CeIo.register, ceTpWorkerRegister, same]
    split
    · exact ⟨[], by simp⟩
    · exact ⟨[.enqueueProcessor], rfl, by simp⟩

end CeIo

/-- `ce_io_enqueue` stays within what a write can do. -/
theorem ceIoEnqueue_writes (io : CeIo) (fd : Int) (arg : PacketArg) :
    io.Writes fd (ceIoEnqueue io fd arg).1 := by
  -- Each early return leaves at one more stage of the write.
  unfold ceIoEnqueue
  split
  · exact .refl io fd
  · split_ifs
    · exact .refl io fd
    · exact .refl io fd
    · split
      · exact .refl io fd
      · rename_i record ioFd found
        have filled := CeIo.Writes.fill found
        dsimp only
        split_ifs
        · exact filled _
        · exact ((filled _).queue rfl found).register rfl
        · exact (filled _).queue rfl found

/-- `ce_io_push` stays within what a write can do. -/
theorem ceIoPush_writes (io : CeIo) (pushType : CePushType) (fd : Int) (arg : PacketArg) :
    io.Writes fd (ceIoPush io pushType fd arg).1 := by
  -- As before, with one more stage between the two writes.
  unfold ceIoPush
  split
  · exact .refl io fd
  · split_ifs
    · exact .refl io fd
    · exact .refl io fd
    · split
      · exact .refl io fd
      · rename_i record ioFd found
        have filled := CeIo.Writes.fill found
        -- The second write replaces the record that the first one has set.
        have again : ∀ first second : CeIoFd, (io.setRecord record first).setRecord record second =
            io.setRecord record second := by
          intro first second
          simp [CeIo.setRecord]
        simp only [again]
        split_ifs
        · exact filled _
        · exact filled _
        · exact (filled _).register rfl

/-- A connection takes a chunk: it is registered, and its buffer and the event ring have room. -/
def CeIo.Accepts (io : CeIo) (fd : Int) (size : UInt16) : Prop :=
  ∃ record ioFd, io.findIoFd fd = some (record, ioFd) ∧ size.toNat ≤ ioFd.enqueueBuffer.room ∧
    uintptrSize ≤ io.enqueueFdEvent.ring.room

/-- A record pointer is written whole just when there is room for it. -/
theorem EventRing.write_whole_iff (events : EventRing) (record : RecordId) :
    (events.write record).2 = true ↔ uintptrSize ≤ events.ring.room := by
  -- What is written of a pointer is what finds room.
  have count : (events.ring.write (pointerSource record)).2 =
      min uintptrSize events.ring.room := by
    rw [Ring.count_write]
    rfl
  rw [EventRing.write]
  split
  · rename_i fits
    rw [count] at fits
    simp only [true_iff]
    omega
  · rename_i short
    rw [count] at short
    simp only [Bool.false_eq_true, false_iff]
    omega

/--
`ce_io_enqueue` of a legal chunk on a running io returns true just when the connection takes it.

It then has written the whole chunk behind the bytes that wait, and else has queued no event.
-/
theorem ceIoEnqueue_cases {io : CeIo} {fd : Int} {arg : PacketArg} {bytes : Bytes}
    (given : arg.data = some bytes) (legal : ¬ (fd ≤ 0 ∨ arg.size = 0)) (running : io.stop = false)
    (alive : io.workers.abort = false) :
    ((ceIoEnqueue io fd arg).2 = false ∧ ¬ io.Accepts fd arg.size ∧
        (ceIoEnqueue io fd arg).1.enqueueFdEvent.queued = io.enqueueFdEvent.queued) ∨
      ((ceIoEnqueue io fd arg).2 = true ∧ ∃ record ioFd enqueueBuffer,
        io.findIoFd fd = some (record, ioFd) ∧
        (ceIoEnqueue io fd arg).1.records record =
          some { ioFd with enqueueBuffer := enqueueBuffer } ∧
        enqueueBuffer.content = ioFd.enqueueBuffer.content ++ bytes.take arg.size.toNat) := by
  unfold ceIoEnqueue
  split
  · rename_i absent
    exact absurd (given.symm.trans absent) (by simp)
  · rename_i bytes' given'
    obtain rfl : bytes' = bytes := Option.some.inj (given'.symm.trans given)
    rw [if_neg legal, if_neg (by simp [running])]
    split
    · rename_i absent
      refine .inl ⟨rfl, ?_, rfl⟩
      rintro ⟨record, ioFd, found, -⟩
      exact absurd (absent.symm.trans found) (by simp)
    · rename_i record ioFd found
      have count : (ioFd.enqueueBuffer.write (arg.source bytes' given')).2 =
          min arg.size.toNat ioFd.enqueueBuffer.room := by
        rw [Ring.count_write]
        rfl
      -- A lookup leads to one record only.
      have unique : ∀ {other otherFd}, io.findIoFd fd = some (other, otherFd) →
          otherFd = ioFd := by
        intro other otherFd same
        exact (Prod.mk.inj (Option.some.inj (same.symm.trans found))).2
      dsimp only
      split_ifs with short whole
      · -- The data were cut short, so there was not room for all of them.
        refine .inl ⟨rfl, ?_, rfl⟩
        rintro ⟨other, otherFd, same, fits, -⟩
        rw [count] at short
        rw [unique same] at fits
        exact short (by rw [Nat.min_eq_left fits])
      · have written := count.symm.trans (not_not.mp short)
        refine .inr ⟨?_, record, ioFd, _, found, CeIo.records_setRecord_self .., ?_⟩
        · simp [CeIo.register, ceTpWorkerRegister, CeIo.setRecord, alive]
        · have fits : min arg.size.toNat ioFd.enqueueBuffer.room = arg.size.toNat :=
            Int.ofNat_inj.mp written
          rw [Ring.content_write]
          simp only [PacketArg.source, Int.toNat_natCast, fits]
      · -- The data are stored, and the event ring had no room for the pointer.
        refine .inl ⟨rfl, ?_, ?_⟩
        · rintro ⟨other, otherFd, -, -, room⟩
          exact whole ((EventRing.write_whole_iff ..).mpr room)
        · rw [EventRing.write_queued, if_neg whole]
          rfl

/-- `ce_io_add` refuses on a stopped io or when it finds the fd, and else takes it in. -/
theorem ceIoAdd_cases (io : CeIo) (fd : Int) :
    ((io.stop = true ∨ (dictFind io.ioDict fd).isSome) ∧ ceIoAdd io fd = (io, false)) ∨
      (io.stop = false ∧ dictFind io.ioDict fd = none ∧
        ceIoAdd io fd = (io.withAdded fd, true)) := by
  -- The search of `dictAdd` repeats the one just made, so it finds nothing either.
  cases stopped : io.stop with
  | true => exact .inl ⟨.inl rfl, by simp [ceIoAdd, stopped]⟩
  | false =>
    cases found : dictFind io.ioDict fd with
    | some entry => exact .inl ⟨.inr rfl, by simp [ceIoAdd, stopped, found]⟩
    | none =>
      refine .inr ⟨rfl, rfl, ?_⟩
      simp only [ceIoAdd, stopped, found, dictAdd, CeIo.withAdded, CeIo.setRecord]
      rfl

/-- The record that was added has empty buffers. -/
@[simp] theorem CeIo.records_withAdded_self (io : CeIo) (fd : Int) :
    (io.withAdded fd).records io.allocated =
      some (newIoFd fd io.conf.perCacheRingbufferSize io.conf.ringPositive) :=
  io.records_setRecord_self ..

/-- The other records are as they were. -/
@[simp] theorem CeIo.records_withAdded_of_ne (io : CeIo) (fd : Int) {record : RecordId}
    (old : record ≠ io.allocated) : (io.withAdded fd).records record = io.records record :=
  io.records_setRecord_of_ne _ old

@[simp] theorem CeIo.allocated_withAdded (io : CeIo) (fd : Int) :
    (io.withAdded fd).allocated = io.allocated + 1 := rfl

@[simp] theorem CeIo.workers_withAdded (io : CeIo) (fd : Int) :
    (io.withAdded fd).workers = io.workers := rfl

@[simp] theorem CeIo.enqueueFdEvent_withAdded (io : CeIo) (fd : Int) :
    (io.withAdded fd).enqueueFdEvent = io.enqueueFdEvent := rfl

@[simp] theorem CeIo.pushFdEvent_withAdded (io : CeIo) (fd : Int) :
    (io.withAdded fd).pushFdEvent = io.pushFdEvent := rfl

/-- The rings of the other records, and those of the io, are as they were. -/
theorem CeIo.rings_withAdded_of_ne (io : CeIo) (fd : Int) {ring : RbOwner}
    (old : ring.record ≠ some io.allocated) : (io.withAdded fd).rings ring = io.rings ring := by
  cases ring with
  | enqueueFdEvent | pushFdEvent => rfl
  | enqueueBuffer record | pushBuffer record =>
    have apart : record ≠ io.allocated := fun same => old (congrArg some same)
    simp [withAdded, newRings, setRecord, apart]

/-- The io after `ce_io_del` took an entry out, which stood between the other entries. -/
def CeIo.withDeleted (io : CeIo) (entry : DictEntry Int RecordId)
    (others : List (DictEntry Int RecordId)) : CeIo :=
  { io with
    ioDict := { io.ioDict with entries := others }
    workers := (ceTpWorkerRegister io.workers (.deleteProcessor entry.val)).1 }

/-- `ce_io_del` refuses on a stopped io or when it finds no entry, and else takes the entry out. -/
theorem ceIoDel_cases (io : CeIo) (fd : Int) :
    ((fd ≤ 0 ∨ io.stop = true ∨ dictFind io.ioDict fd = none) ∧ ceIoDel io fd = (io, false)) ∨
      (0 < fd ∧ io.stop = false ∧ ∃ entry before after, dictFind io.ioDict fd = some entry ∧
        io.ioDict.entries = before ++ entry :: after ∧
        ceIoDel io fd = (io.withDeleted entry (before ++ after), true)) := by
  by_cases negative : fd ≤ 0
  · exact .inl ⟨.inl negative, by simp [ceIoDel, negative]⟩
  · cases stopped : io.stop with
    | true => exact .inl ⟨.inr (.inl rfl), by simp [ceIoDel, stopped]⟩
    | false =>
      cases found : dictFind io.ioDict fd with
      | none => exact .inl ⟨.inr (.inr rfl), by simp [ceIoDel, stopped, found]⟩
      | some entry =>
        -- The deletion takes out the entry that the search has found.
        obtain ⟨before, after, split, deleted⟩ := dictDelete_found found
        refine .inr ⟨by omega, rfl, entry, before, after, rfl, split, ?_⟩
        simp only [ceIoDel, negative, stopped, found, deleted, CeIo.register, CeIo.withDeleted]
        rfl

/-- What an io keeps when entries are taken out of its registry at most. -/
structure CeIo.Keeps (io next : CeIo) : Prop where
  host : next.host = io.host
  conf : next.conf = io.conf
  allocated : next.allocated = io.allocated
  stop : next.stop = io.stop
  abort : next.workers.abort = io.workers.abort
  type : next.ioDict.type = io.ioDict.type
  entries : next.ioDict.entries.Sublist io.ioDict.entries

/-- What `ce_io_del` can do to an io: it takes an entry out, and hands the pool a delete job. -/
structure CeIo.Deletes (io next : CeIo) : Prop extends io.Keeps next where
  records : next.records = io.records
  enqueueFdEvent : next.enqueueFdEvent = io.enqueueFdEvent
  pushFdEvent : next.pushFdEvent = io.pushFdEvent
  rings : next.rings = io.rings

/-- An io that nothing was done to is kept. -/
theorem CeIo.Keeps.refl (io : CeIo) : io.Keeps io :=
  ⟨rfl, rfl, rfl, rfl, rfl, rfl, List.Sublist.refl _⟩

/-- So is an io that a write has filled. -/
theorem CeIo.Writes.keeps {io next : CeIo} {fd : Int} (writes : io.Writes fd next) :
    io.Keeps next where
  host := writes.host
  conf := writes.conf
  allocated := writes.allocated
  stop := writes.stop
  abort := writes.abort
  type := congrArg Dict.type writes.ioDict
  entries := by
    -- A write takes no entry out at all.
    rw [writes.ioDict]

/-- No write allocates or frees a record. -/
theorem CeIo.Writes.isSome {io next : CeIo} {fd : Int} (writes : io.Writes fd next)
    (record : RecordId) : (next.records record).isSome = (io.records record).isSome := by
  rcases writes.records record with same | ⟨ioFd, buffer, found, filled⟩
  · rw [same]
  · -- The record that is filled was found, so it was there before.
    rw [filled, (CeIo.findIoFd_eq_some_iff.mp found).choose_spec.2.2]
    rfl

/-- `ce_io_del` does nothing else. -/
theorem ceIoDel_deletes (io : CeIo) (fd : Int) : io.Deletes (ceIoDel io fd).1 := by
  rcases ceIoDel_cases io fd with ⟨-, refused⟩ | ⟨-, -, entry, before, after, -, split, deleted⟩
  · rw [refused]
    exact ⟨.refl io, rfl, rfl, rfl, rfl⟩
  · rw [deleted]
    refine ⟨⟨rfl, rfl, rfl, rfl, ?_, rfl, ?_⟩, rfl, rfl, rfl, rfl⟩
    · simp only [CeIo.withDeleted, ceTpWorkerRegister]
      split <;> rfl
    · -- One entry is missing from the list, and the others stand as before.
      rw [split]
      exact (List.append_sublist_append_left before).mpr (List.sublist_cons_self entry after)

end Cevent
