import Cevent.Io.Calls
import Cevent.Library.Machine

/-! An io under its callers and its pool of workers, one step of one of them at a time. -/

namespace Cevent

open BoundedLoop Interleaving

/-- The two jobs that drain an event ring. -/
inductive Processor where
  /-- `_ce_io_enqueue_buffer_processor`, under the `enqueue_lock` of a record. -/
  | enqueue
  /-- `_ce_io_push_buffer_processor`, under the `push_lock` of a record. -/
  | push
  deriving DecidableEq, Repr

/-- The two event rings of an io. -/
inductive FdEvent where
  | enqueue
  | push
  deriving DecidableEq, Repr

/-- The event ring that each processor of the source drains. -/
-- Both processors name `push_fd_event`, though each has a ring of its own.
def sourceDrains : Processor → FdEvent := fun _ => .push

/-- What `_ce_io_delete_fd_processor` frees next. -/
inductive DeleteStage where
  | enqueueBuffer
  | pushBuffer
  | record
  deriving DecidableEq, Repr

/-- Where a worker stands. -/
inductive WorkerPc where
  /-- In the pool, without a job. -/
  | idle
  /-- At the loop condition of a processor. -/
  | draining (processor : Processor)
  /-- A record was popped, and its lock is not taken yet. -/
  | popped (processor : Processor) (record : RecordId)
  /-- The record is locked, and the loop over its buffer is to run. -/
  | locked (processor : Processor) (record : RecordId)
  /-- The loop over its buffer is done, and the record is still locked. -/
  | looped (processor : Processor) (record : RecordId)
  /-- In the delete job of a record. -/
  | deleting (stage : DeleteStage) (record : RecordId)
  deriving DecidableEq, Repr

/-- The worker holds the lock of a record that the processor runs under. -/
def WorkerPc.holds (processor : Processor) (record : RecordId) : WorkerPc → Bool
  | .locked other held | .looped other held => other == processor && held == record
  | _ => false

/-- The record that a worker has popped and is not finished with. -/
def WorkerPc.visits : WorkerPc → Option RecordId
  | .popped _ record | .locked _ record | .looped _ record => some record
  | _ => none

/-- The record that a worker has popped and not locked yet. -/
def WorkerPc.awaits : WorkerPc → Option RecordId
  | .popped _ record => some record
  | _ => none

/-- The record of a delete job that has not begun to free anything. -/
def WorkerPc.startsDeleting : WorkerPc → Option RecordId
  | .deleting .enqueueBuffer record => some record
  | _ => none

/-- A worker that visits a record, in its lock and not in the enqueue lock, holds the push lock. -/
theorem WorkerPc.holds_push_of_visits {pc : WorkerPc} {record : RecordId}
    (visits : pc.visits = some record) (locked : pc.awaits ≠ some record)
    (unlocked : pc.holds .enqueue record = false) : pc.holds .push record = true := by
  -- The places that visit a record are the wait for its lock and the two under it.
  cases pc with
  | idle | draining | deleting => cases visits
  | popped processor =>
    exact absurd visits locked
  | locked processor | looped processor =>
    cases visits
    cases processor <;> simp [holds] at unlocked ⊢

/-- Where a worker stands once it has taken a job. -/
def WorkItem.start : WorkItem → WorkerPc
  | .enqueueProcessor => .draining .enqueue
  | .pushProcessor => .draining .push
  -- The buffers are freed first, each under its own lock.
  | .deleteProcessor record => .deleting .enqueueBuffer record

/-- One of the two event rings. -/
def CeIo.events (io : CeIo) : FdEvent → EventRing
  | .enqueue => io.enqueueFdEvent
  | .push => io.pushFdEvent

/-- The io with one of its event rings replaced. -/
def CeIo.setEvents (io : CeIo) (events : EventRing) : FdEvent → CeIo
  | .enqueue => { io with enqueueFdEvent := events }
  | .push => { io with pushFdEvent := events }

/-- What can be seen of a step. -/
inductive IoEvent where
  /-- A call on the io returned. -/
  | returned (api : IoApi) (result : Bool)
  /-- A processor called out of the library, at work on a record. -/
  | callback (record : RecordId) (call : IoCall)

/-- An io, its workers, and a note of the records that `on_exception` was called for. -/
structure IoSystem (n : Nat) where
  io : CeIo
  pcs : Fin n → WorkerPc
  failed : List RecordId

/-- A step of one of the callers, or of one worker with the `send` it would use. -/
inductive IoAction (n : Nat) where
  | call (api : IoApi)
  | work (worker : Fin n) (send : Int → Bytes → Int)

/-- The loop of a processor over the buffer of one record. -/
def processorLoop (io : CeIo) (send : Int → Bytes → Int) (ioFd : CeIoFd) :
    Processor → Pass CeIoFd IoCall LoopExit
  | .enqueue => enqueueLoop io.host io.conf.perMaxPacketBodySize ioFd
  | .push => pushLoop send ioFd

/-- The io after that loop: a failed connection is taken out of the registry. -/
def CeIo.afterLoop (io : CeIo) (record : RecordId) (done : Pass CeIoFd IoCall LoopExit) : CeIo :=
  let io := io.setRecord record done.state
  -- The source calls `ce_io_del` on the fd of the record, from inside the job.
  if done.exit = some .fail then (ceIoDel io done.state.fd).1 else io

/-- Besides the record's new content, that is all a loop changes about an io. -/
theorem CeIo.afterLoop_deletes (io : CeIo) (record : RecordId)
    (done : Pass CeIoFd IoCall LoopExit) :
    (io.setRecord record done.state).Deletes (io.afterLoop record done) := by
  unfold afterLoop
  dsimp only
  -- The deletion is the only thing that is done besides storing the record.
  split
  · exact ceIoDel_deletes _ _
  · exact ⟨.refl _, rfl, rfl, rfl, rfl⟩

namespace IoSystem

variable {n : Nat}

/-- The system of an io whose workers have nothing to do. -/
def atRest (n : Nat) (io : CeIo) : IoSystem n where
  io := io
  pcs := fun _ => .idle
  failed := []

/-- One worker moves on to another place. -/
def goto (sys : IoSystem n) (worker : Fin n) (pc : WorkerPc) : IoSystem n :=
  { sys with pcs := Function.update sys.pcs worker pc }

/-- No worker holds the lock of a record that the processor runs under. -/
def Unlocked (sys : IoSystem n) (processor : Processor) (record : RecordId) : Prop :=
  ∀ worker, (sys.pcs worker).holds processor record = false

instance (sys : IoSystem n) (processor : Processor) (record : RecordId) :
    Decidable (sys.Unlocked processor record) :=
  inferInstanceAs (Decidable (∀ _, _))

/-- The next step of a worker, when it can take one. -/
def work (drains : Processor → FdEvent) (sys : IoSystem n) (worker : Fin n)
    (send : Int → Bytes → Int) : Option (IoSystem n × List IoEvent) :=
  match sys.pcs worker with
  | .idle =>
    match sys.io.workers.workerQueue with
    -- A worker without a job waits for one.
    | [] => none
    | item :: others =>
      let workers := { sys.io.workers with workerQueue := others }
      some ({ sys with io := { sys.io with workers := workers } }.goto worker item.start, [])
  | .draining processor =>
    if (sys.io.events (drains processor)).ready then
      -- Bytes that are not a pointer written whole are never popped.
      match (sys.io.events (drains processor)).pop with
      | none => none
      | some (record, events) =>
        let io := sys.io.setEvents events (drains processor)
        some ({ sys with io := io }.goto worker (.popped processor record), [])
    else some (sys.goto worker .idle, [])
  | .popped processor record =>
    -- The mutex of the record is taken when nobody holds it.
    if sys.Unlocked processor record then some (sys.goto worker (.locked processor record), [])
    else none
  | .locked processor record =>
    match sys.io.records record with
    -- A record that was freed has nothing to work on, and the run is not followed further.
    | none => none
    | some ioFd =>
      -- The lock is held throughout, so the loop is one step.
      let done := processorLoop sys.io send ioFd processor
      let failed := if done.events.any (·.isException) then record :: sys.failed else sys.failed
      some ({ sys with io := sys.io.afterLoop record done, failed := failed }.goto worker
        (.looped processor record), done.events.map (.callback record))
  | .looped processor _ => some (sys.goto worker (.draining processor), [])
  | .deleting .enqueueBuffer record =>
    if sys.Unlocked .enqueue record then
      some ({ sys with io := sys.io.freeRing (.enqueueBuffer record) }.goto worker
        (.deleting .pushBuffer record), [])
    else none
  | .deleting .pushBuffer record =>
    if sys.Unlocked .push record then
      some ({ sys with io := sys.io.freeRing (.pushBuffer record) }.goto worker
        (.deleting .record record), [])
    else none
  | .deleting .record record =>
    -- From here on the pointer to the record is dangling.
    let io := { sys.io with records := Function.update sys.io.records record none }
    some ({ sys with io := io }.goto worker .idle, [])

end IoSystem

/-- An io with any number of workers, whose processors drain the given event rings. -/
def ioMachine (n : Nat) (drains : Processor → FdEvent) :
    Machine (IoSystem n) (IoAction n) IoEvent where
  step sys
    | .call api =>
      let (io, result) := ioCall sys.io api
      some ({ sys with io := io }, [.returned api result])
    | .work worker send => sys.work drains worker send

/-- A step of a caller is its call, and shows what the call returns. -/
theorem ioMachine_call {n : Nat} {drains : Processor → FdEvent} {sys next : IoSystem n}
    {api : IoApi} {events : List IoEvent}
    (taken : (ioMachine n drains).step sys (.call api) = some (next, events)) :
    next = { sys with io := (ioCall sys.io api).1 } ∧
      events = [.returned api (ioCall sys.io api).2] := by
  obtain ⟨rfl, rfl⟩ := Prod.mk.inj (Option.some.inj taken)
  exact ⟨rfl, rfl⟩

/-- A send that takes all it is given. -/
def sendAll (_fd : Int) (data : Bytes) : Int := data.length

@[simp] theorem IoSystem.goto_io {n : Nat} (sys : IoSystem n) (worker : Fin n) (pc : WorkerPc) :
    (sys.goto worker pc).io = sys.io := rfl

@[simp] theorem IoSystem.goto_failed {n : Nat} (sys : IoSystem n) (worker : Fin n)
    (pc : WorkerPc) : (sys.goto worker pc).failed = sys.failed := rfl

/-- Only one worker moves. -/
theorem IoSystem.goto_pcs {n : Nat} (sys : IoSystem n) (worker other : Fin n) (pc : WorkerPc) :
    (sys.goto worker pc).pcs other = if other = worker then pc else sys.pcs other := by
  simp [goto, Function.update_apply]

/-- Every step of a worker, with what it needs and what it does. -/
inductive WorkerMove {n : Nat} (drains : Processor → FdEvent) (sys : IoSystem n) (worker : Fin n)
    (send : Int → Bytes → Int) : IoSystem n → List IoEvent → Prop where
  /-- The first job of the pool is taken. -/
  | take (item : WorkItem) (others : List WorkItem) (place : sys.pcs worker = .idle)
      (first : sys.io.workers.workerQueue = item :: others) :
      WorkerMove drains sys worker send
        ({ sys with io := { sys.io with
          workers := { sys.io.workers with workerQueue := others } } }.goto worker item.start) []
  /-- The first record of the ring is popped. -/
  | pop (processor : Processor) (record : RecordId) (events : EventRing)
      (place : sys.pcs worker = .draining processor)
      (first : (sys.io.events (drains processor)).pop = some (record, events)) :
      WorkerMove drains sys worker send
        ({ sys with io := sys.io.setEvents events (drains processor) }.goto worker
          (.popped processor record)) []
  /-- The ring holds no pointer, so the job is done. -/
  | leave (processor : Processor) (place : sys.pcs worker = .draining processor)
      (drained : (sys.io.events (drains processor)).ready = false) :
      WorkerMove drains sys worker send (sys.goto worker .idle) []
  /-- The popped record is locked. -/
  | lock (processor : Processor) (record : RecordId)
      (place : sys.pcs worker = .popped processor record)
      (free : sys.Unlocked processor record) :
      WorkerMove drains sys worker send (sys.goto worker (.locked processor record)) []
  /-- The loop over the record's buffer runs. -/
  | loop (processor : Processor) (record : RecordId) (ioFd : CeIoFd)
      (place : sys.pcs worker = .locked processor record)
      (held : sys.io.records record = some ioFd) :
      WorkerMove drains sys worker send
        ({ sys with
          io := sys.io.afterLoop record (processorLoop sys.io send ioFd processor)
          failed := if (processorLoop sys.io send ioFd processor).events.any (·.isException)
            then record :: sys.failed else sys.failed }.goto worker (.looped processor record))
        ((processorLoop sys.io send ioFd processor).events.map (.callback record))
  /-- The record is unlocked. -/
  | unlock (processor : Processor) (record : RecordId)
      (place : sys.pcs worker = .looped processor record) :
      WorkerMove drains sys worker send (sys.goto worker (.draining processor)) []
  /-- The enqueue buffer of the record is freed under its lock. -/
  | freeEnqueueBuffer (record : RecordId)
      (place : sys.pcs worker = .deleting .enqueueBuffer record)
      (free : sys.Unlocked .enqueue record) :
      WorkerMove drains sys worker send
        ({ sys with io := sys.io.freeRing (.enqueueBuffer record) }.goto worker
          (.deleting .pushBuffer record)) []
  /-- The push buffer of the record is freed under its lock. -/
  | freePushBuffer (record : RecordId)
      (place : sys.pcs worker = .deleting .pushBuffer record)
      (free : sys.Unlocked .push record) :
      WorkerMove drains sys worker send
        ({ sys with io := sys.io.freeRing (.pushBuffer record) }.goto worker
          (.deleting .record record)) []
  /-- The record itself is freed. -/
  | freeRecord (record : RecordId) (place : sys.pcs worker = .deleting .record record) :
      WorkerMove drains sys worker send
        ({ sys with io := { sys.io with
          records := Function.update sys.io.records record none } }.goto worker .idle) []

/-- A worker takes no other steps. -/
theorem IoSystem.work_move {n : Nat} {drains : Processor → FdEvent} {sys next : IoSystem n}
    {worker : Fin n} {send : Int → Bytes → Int} {events : List IoEvent}
    (taken : sys.work drains worker send = some (next, events)) :
    WorkerMove drains sys worker send next events := by
  -- One case for each place where a worker can stand.
  unfold IoSystem.work at taken
  split at taken
  case h_1 place =>
    split at taken
    · cases taken
    · rename_i item others first
      cases taken
      exact .take item others place first
  case h_2 processor place =>
    split at taken
    · split at taken
      · cases taken
      · rename_i record events first
        cases taken
        exact .pop processor record events place first
    · rename_i drained
      cases taken
      exact .leave processor place (Bool.not_eq_true _ ▸ drained)
  case h_3 processor record place =>
    split at taken
    · rename_i free
      cases taken
      exact .lock processor record place free
    · cases taken
  case h_4 processor record place =>
    split at taken
    · cases taken
    · rename_i ioFd held
      cases taken
      exact .loop processor record ioFd place held
  case h_5 processor record place =>
    cases taken
    exact .unlock processor record place
  case h_6 record place =>
    split at taken
    · rename_i free
      cases taken
      exact .freeEnqueueBuffer record place free
    · cases taken
  case h_7 record place =>
    split at taken
    · rename_i free
      cases taken
      exact .freePushBuffer record place free
    · cases taken
  case h_8 record place =>
    cases taken
    exact .freeRecord record place

end Cevent
