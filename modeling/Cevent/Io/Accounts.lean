import Cevent.Io.Lifetime
import Cevent.Io.Streams
import Cevent.Library.Holders

/-! Where every record of an io is, and which ring buffers are allocated. -/

namespace Cevent

open Interleaving

/-- The records that a step frees, at the end of their delete jobs. -/
def IoSystem.frees {n : Nat} (sys : IoSystem n) : IoAction n → List RecordId
  | .call _ => []
  | .work worker _ =>
    match sys.pcs worker with
    | .deleting .record record => [record]
    | _ => []

/-- The record of the delete job that a worker is in. -/
def WorkerPc.deletes : WorkerPc → Option RecordId
  | .deleting _ record => some record
  | _ => none

/-- How often the registry and the queue of the pool hold a record. -/
def CeIo.waiting (io : CeIo) (record : RecordId) : Nat :=
  io.registered.count record + io.workers.workerQueue.count (.deleteProcessor record)

/-- In how many places a record is that was not freed: there, or with a worker. -/
def IoSystem.places {n : Nat} (sys : IoSystem n) (record : RecordId) : Nat :=
  sys.io.waiting record + holders (fun worker => (sys.pcs worker).deletes) record

/-- Every record that was ever allocated is in one place or was freed once. -/
structure Accounted {n : Nat} (sys : IoSystem n) (trace : List RecordId) : Prop where
  once : ∀ record,
    sys.places record + trace.count record = if record < sys.io.allocated then 1 else 0
  held : ∀ record, (sys.io.records record).isSome ↔ record < sys.io.allocated ∧ record ∉ trace

namespace Accounted

variable {n : Nat} {sys next : IoSystem n} {trace : List RecordId}

/-- A new io has allocated nothing. -/
theorem new (n : Nat) (host : ByteOrder) (type : DictType Int) (conf : CeConf) :
    Accounted (IoSystem.atRest n (ceIoNew host type conf)) [] where
  once record := by
    -- No worker is in a delete job.
    have none_ : holders (fun _ : Fin n => WorkerPc.idle.deletes) record = 0 :=
      holders_eq_zero_iff.mpr fun _ same => by cases same
    simpa [IoSystem.places, CeIo.waiting, IoSystem.atRest, ceIoNew, CeIo.registered,
      dictCreate] using none_
  held record := by simp [IoSystem.atRest, ceIoNew]

/-- A call that leaves every record where it is, or in the queue instead, keeps the account. -/
theorem called (acc : Accounted sys trace) {io : CeIo}
    (waiting : ∀ record, io.waiting record = sys.io.waiting record)
    (allocated : io.allocated = sys.io.allocated)
    (held : ∀ record, (io.records record).isSome = (sys.io.records record).isSome) :
    Accounted { sys with io := io } trace where
  once record := by
    rw [IoSystem.places, waiting, allocated]
    exact acc.once record
  held record := by rw [held, allocated, acc.held]

/-- A worker that moves on keeps the account when it takes up what it takes out, and frees the rest. -/
theorem moved (acc : Accounted sys trace) {worker : Fin n} {pc : WorkerPc}
    {events : List RecordId} (pcs : next.pcs = Function.update sys.pcs worker pc)
    (balance : ∀ record, next.io.waiting record + (if pc.deletes = some record then 1 else 0) +
      events.count record =
        sys.io.waiting record + if (sys.pcs worker).deletes = some record then 1 else 0)
    (allocated : next.io.allocated = sys.io.allocated)
    (held : ∀ record, (next.io.records record).isSome ↔
      (sys.io.records record).isSome ∧ record ∉ events) :
    Accounted next (trace ++ events) where
  once record := by
    have shift := holders_update (fun other => (sys.pcs other).deletes) worker pc.deletes record
    have same : (fun other => (next.pcs other).deletes) =
        Function.update (fun other => (sys.pcs other).deletes) worker pc.deletes := by
      rw [pcs]
      exact Function.comp_update WorkerPc.deletes sys.pcs worker pc
    -- What the worker no longer holds is freed, or somewhere else.
    have before := acc.once record
    have here := balance record
    simp only [IoSystem.places] at before ⊢
    rw [same, List.count_append, allocated]
    omega
  held record := by
    rw [held, acc.held, allocated, List.mem_append, not_or, and_assoc]

/-- A new record is registered, and nowhere else. -/
theorem added (acc : Accounted sys trace) (fd : Int) :
    Accounted { sys with io := sys.io.withAdded fd } trace where
  once record := by
    have before := acc.once record
    have grown : (sys.io.withAdded fd).waiting record =
        sys.io.waiting record + if record = sys.io.allocated then 1 else 0 := by
      have one : [sys.io.allocated].count record = if record = sys.io.allocated then 1 else 0 := by
        by_cases fresh : record = sys.io.allocated
        · simp [fresh]
        · simp [fresh, Ne.symm fresh]
      have registered : (sys.io.withAdded fd).registered =
          sys.io.registered ++ [sys.io.allocated] := List.map_append
      rw [CeIo.waiting, registered, List.count_append, one, CeIo.waiting, Nat.add_right_comm]
      rfl
    have bound : record < (sys.io.withAdded fd).allocated ↔
        record = sys.io.allocated ∨ record < sys.io.allocated := by
      rw [CeIo.withAdded]
      exact Nat.lt_succ_iff_lt_or_eq.trans or_comm
    simp only [IoSystem.places] at before ⊢
    rw [grown]
    by_cases fresh : record = sys.io.allocated
    · rw [if_neg (by simp [fresh])] at before
      rw [if_pos fresh, if_pos (bound.mpr (.inl fresh))]
      omega
    · rw [if_neg fresh, Nat.add_zero, before]
      simp only [bound, fresh, false_or]
  held record := by
    by_cases fresh : record = sys.io.allocated
    · -- The trace cannot hold a record that was not there before.
      have before := acc.once record
      rw [if_neg (by simp [fresh])] at before
      have unseen : record ∉ trace := List.count_eq_zero.mp (by omega)
      subst fresh
      simp [unseen]
    · have held := acc.held record
      have bound : record < sys.io.allocated + 1 ↔ record < sys.io.allocated := by
        have apart : record ≠ sys.io.allocated := fresh
        exact ⟨fun below => Nat.lt_of_le_of_ne (Nat.le_of_lt_succ below) apart, Nat.lt_succ_of_lt⟩
      simp [fresh, held, bound]

/-- A deleted entry leaves the registry, and its record waits in the queue of the pool. -/
theorem deleted (acc : Accounted sys trace) (alive : sys.io.workers.abort = false)
    {entry : DictEntry Int RecordId} {before after : List (DictEntry Int RecordId)}
    (split : sys.io.ioDict.entries = before ++ entry :: after) :
    Accounted { sys with io := sys.io.withDeleted entry (before ++ after) } trace := by
  refine acc.called ?_ rfl (fun _ => rfl)
  intro record
  have jobs : (sys.io.withDeleted entry (before ++ after)).workers.workerQueue =
      sys.io.workers.workerQueue ++ [.deleteProcessor entry.val] := by
    simp [CeIo.withDeleted, ceTpWorkerRegister, alive]
  have registered : (sys.io.withDeleted entry (before ++ after)).registered =
      before.map (·.val) ++ after.map (·.val) := List.map_append
  have was : sys.io.registered = before.map (·.val) ++ entry.val :: after.map (·.val) := by
    rw [CeIo.registered, split, List.map_append, List.map_cons]
  -- Delete jobs are told apart by their records.
  have same : (WorkItem.deleteProcessor entry.val == .deleteProcessor record) =
      (entry.val == record) := by
    rw [Bool.eq_iff_iff]
    simp
  rw [CeIo.waiting, CeIo.waiting, jobs, registered, was]
  simp only [List.count_append, List.count_cons, List.count_nil, same]
  omega

/-- So `ce_io_del` keeps the account, unless the pool refuses its job. -/
theorem del (acc : Accounted sys trace) (alive : sys.io.stop = false → sys.io.workers.abort = false)
    (fd : Int) : Accounted { sys with io := (ceIoDel sys.io fd).1 } trace := by
  rcases ceIoDel_cases sys.io fd with ⟨-, refused⟩ |
    ⟨-, running, entry, before, after, -, split, deleted⟩
  · rw [refused]
    exact acc
  · rw [deleted]
    exact acc.deleted (alive running) split

/-- A call that writes to a connection keeps the account. -/
theorem writes (acc : Accounted sys trace) {fd : Int} {io : CeIo} (writes : sys.io.Writes fd io) :
    Accounted { sys with io := io } trace := by
  obtain ⟨more, jobs, processors⟩ := writes.jobs
  refine acc.called ?_ writes.allocated writes.isSome
  intro record
  -- The jobs that a write registers are processors.
  have none_ : more.count (.deleteProcessor record) = 0 := by
    refine List.count_eq_zero.mpr fun inside => ?_
    cases processors _ inside
  rw [CeIo.waiting, CeIo.waiting, CeIo.registered, CeIo.registered, writes.ioDict, jobs,
    List.count_append, none_, Nat.add_zero]

/-- Every call keeps the account. -/
theorem call (acc : Accounted sys trace)
    (alive : sys.io.stop = false → sys.io.workers.abort = false) (api : IoApi) :
    Accounted { sys with io := (ioCall sys.io api).1 } trace := by
  cases api with
  | add fd =>
    rcases ceIoAdd_cases sys.io fd with ⟨-, refused⟩ | ⟨-, -, added⟩
    · rw [ioCall, refused]
      exact acc
    · rw [ioCall, added]
      exact acc.added fd
  | enqueue fd arg => exact acc.writes (ceIoEnqueue_writes sys.io fd arg)
  | push pushType fd arg => exact acc.writes (ceIoPush_writes sys.io pushType fd arg)
  | del fd => exact acc.del alive fd

/-- So does the loop of a processor, which takes a failed connection out of the registry. -/
theorem afterLoop (acc : Accounted sys trace)
    (alive : sys.io.stop = false → sys.io.workers.abort = false) {record : RecordId}
    {ioFd : CeIoFd} (held : sys.io.records record = some ioFd)
    (done : BoundedLoop.Pass CeIoFd IoCall LoopExit) :
    Accounted { sys with io := sys.io.afterLoop record done } trace := by
  have looped : Accounted { sys with io := sys.io.setRecord record done.state } trace :=
    acc.called (fun _ => rfl) rfl (CeIo.isSome_setRecord held done.state)
  unfold CeIo.afterLoop
  dsimp only
  split
  · exact looped.del alive done.state.fd
  · exact looped

/-- So does a worker that moves on within its job. -/
theorem goto (acc : Accounted sys trace) {worker : Fin n} {pc : WorkerPc}
    (same : pc.deletes = (sys.pcs worker).deletes) : Accounted (sys.goto worker pc) trace := by
  have moved : Accounted (sys.goto worker pc) (trace ++ []) := by
    refine acc.moved rfl ?_ rfl (by simp)
    intro record
    rw [same]
    rfl
  rwa [List.append_nil] at moved

/-- The account is not about ring buffers. -/
theorem freeRing (acc : Accounted sys trace) (ring : RbOwner) :
    Accounted { sys with io := sys.io.freeRing ring } trace :=
  acc.called (fun _ => rfl) rfl (fun _ => rfl)

/-- Every step of the callers and the workers keeps the account, with the records it frees. -/
theorem step (acc : Accounted sys trace)
    (alive : sys.io.stop = false → sys.io.workers.abort = false)
    {drains : Processor → FdEvent} {action : IoAction n} {events : List IoEvent}
    (taken : (ioMachine n drains).step sys action = some (next, events)) :
    Accounted next (trace ++ sys.frees action) := by
  cases action with
  | call api =>
    obtain ⟨rfl, -⟩ := ioMachine_call taken
    rw [IoSystem.frees, List.append_nil]
    exact acc.call alive api
  | work worker send =>
    rw [IoSystem.frees]
    cases IoSystem.work_move taken with
    | take item others place first =>
      -- The record of a delete job goes from the queue to the worker.
      rw [place]
      refine acc.moved rfl ?_ rfl (by simp)
      intro record
      rw [place, CeIo.waiting, CeIo.waiting, first]
      cases item with
      | enqueueProcessor | pushProcessor =>
        simp [WorkItem.start, WorkerPc.deletes, CeIo.registered]
      | deleteProcessor other =>
        simp [WorkItem.start, WorkerPc.deletes, CeIo.registered, List.count_cons]
        omega
    | pop processor record ring place first =>
      rw [place, List.append_nil]
      have popped : Accounted { sys with io := sys.io.setEvents ring (drains processor) } trace := by
        cases drains processor with
        | enqueue => exact acc.called (fun _ => rfl) rfl (fun _ => rfl)
        | push => exact acc.called (fun _ => rfl) rfl (fun _ => rfl)
      exact popped.goto (by rw [place]; rfl)
    | leave processor place _ | lock processor record place _ | unlock processor record place =>
      rw [place, List.append_nil]
      exact acc.goto (by rw [place]; rfl)
    -- That a loop has failed is noted beside the io, and moves no record.
    | loop processor record ioFd place held =>
      rw [place, List.append_nil]
      have looped := acc.afterLoop alive held (processorLoop sys.io send ioFd processor)
      have noted : Accounted { sys with
          io := sys.io.afterLoop record (processorLoop sys.io send ioFd processor)
          failed := if (processorLoop sys.io send ioFd processor).events.any (·.isException)
            then record :: sys.failed else sys.failed } trace := ⟨looped.once, looped.held⟩
      exact noted.goto (by rw [place]; rfl)
    | freeEnqueueBuffer record place _ =>
      rw [place, List.append_nil]
      exact (acc.freeRing (.enqueueBuffer record)).goto (by rw [place]; rfl)
    | freePushBuffer record place _ =>
      rw [place, List.append_nil]
      exact (acc.freeRing (.pushBuffer record)).goto (by rw [place]; rfl)
    -- The worker lets go of the record and it goes to the trace.
    | freeRecord record place =>
      rw [place]
      refine acc.moved rfl ?_ rfl ?_
      · intro other
        rw [place]
        simp [WorkerPc.deletes, List.count_cons]
        rfl
      · intro other
        by_cases same : other = record
        · simp [same]
        · simp [same]

end Accounted

/-- The ring buffers that the delete job of a worker has freed. -/
def WorkerPc.freedRings : WorkerPc → List RbOwner
  | .deleting .pushBuffer record => [.enqueueBuffer record]
  | .deleting .record record => [.enqueueBuffer record, .pushBuffer record]
  | _ => []

/-- Those are rings of the record that the job is about. -/
theorem WorkerPc.record_of_mem_freedRings {pc : WorkerPc} {ring : RbOwner}
    (freed : ring ∈ pc.freedRings) : pc.deletes = ring.record := by
  cases pc with
  | deleting stage record =>
    cases stage with
    | enqueueBuffer => cases freed
    | pushBuffer =>
      cases List.mem_singleton.mp freed
      rfl
    | record => rcases List.mem_pair.mp freed with rfl | rfl <;> rfl
  | idle | draining | popped | locked | looped => cases freed

/-- A ring buffer is allocated only while its record is, and not past the point where it is freed. -/
structure RingsOwned {n : Nat} (sys : IoSystem n) : Prop where
  owned : ∀ ring, sys.io.rings ring = true →
    ∀ record ∈ ring.record, (sys.io.records record).isSome
  freed : ∀ worker, ∀ ring ∈ (sys.pcs worker).freedRings, sys.io.rings ring = false

namespace RingsOwned

variable {n : Nat} {sys next : IoSystem n} {trace : List RecordId}

/-- A new io has its two event rings only. -/
theorem new (n : Nat) (host : ByteOrder) (type : DictType Int) (conf : CeConf) :
    RingsOwned (IoSystem.atRest n (ceIoNew host type conf)) where
  owned ring made record inside := by
    cases ring with
    | enqueueFdEvent | pushFdEvent => cases inside
    | enqueueBuffer | pushBuffer => cases made
  freed worker ring inside := by cases inside

/-- What leaves the rings and the records allocated as they are keeps it. -/
theorem called (owned : RingsOwned sys) {io : CeIo} (rings : io.rings = sys.io.rings)
    (held : ∀ record, (io.records record).isSome = (sys.io.records record).isSome) :
    RingsOwned { sys with io := io } where
  owned ring made record inside := by
    rw [held]
    exact owned.owned ring (rings ▸ made) record inside
  freed worker ring inside := by
    rw [rings]
    exact owned.freed worker ring inside

/-- A new record has new rings, and no delete job can be about it. -/
theorem added (owned : RingsOwned sys) (acc : Accounted sys trace) (fd : Int) :
    RingsOwned { sys with io := sys.io.withAdded fd } where
  owned ring made record inside := by
    by_cases fresh : record = sys.io.allocated
    · simp [fresh]
    · have old : ring.record ≠ some sys.io.allocated := by
        intro same
        exact fresh (Option.some.inj (inside.symm.trans same))
      rw [CeIo.rings_withAdded_of_ne _ _ old] at made
      rw [CeIo.records_withAdded_of_ne _ _ fresh]
      exact owned.owned ring made record inside
  freed worker ring inside := by
    -- The record of the job was allocated earlier.
    have old : ring.record ≠ some sys.io.allocated := by
      intro same
      have account := acc.once sys.io.allocated
      rw [if_neg (lt_irrefl _), IoSystem.places] at account
      have nobody : holders (fun other => (sys.pcs other).deletes) sys.io.allocated = 0 := by omega
      exact (holders_eq_zero_iff.mp nobody) worker
        ((WorkerPc.record_of_mem_freedRings inside).trans same)
    rw [CeIo.rings_withAdded_of_ne _ _ old]
    exact owned.freed worker ring inside

/-- Every call keeps it. -/
theorem call (owned : RingsOwned sys) (acc : Accounted sys trace) (api : IoApi) :
    RingsOwned { sys with io := (ioCall sys.io api).1 } := by
  -- An addition allocates the rings of its record with it, and the other calls touch no ring.
  cases api with
  | add fd =>
    rcases ceIoAdd_cases sys.io fd with ⟨-, refused⟩ | ⟨-, -, added⟩
    · rw [ioCall, refused]
      exact owned
    · rw [ioCall, added]
      exact owned.added acc fd
  | enqueue fd arg =>
    have writes := ceIoEnqueue_writes sys.io fd arg
    exact owned.called writes.rings writes.isSome
  | push pushType fd arg =>
    have writes := ceIoPush_writes sys.io pushType fd arg
    exact owned.called writes.rings writes.isSome
  | del fd =>
    have deletes := ceIoDel_deletes sys.io fd
    exact owned.called deletes.rings (fun record => by rw [ioCall, deletes.records])

/-- So does a worker that goes where all that it would have freed is freed. -/
theorem goto (owned : RingsOwned sys) {worker : Fin n} {pc : WorkerPc}
    (freed : ∀ ring ∈ pc.freedRings, sys.io.rings ring = false) :
    RingsOwned (sys.goto worker pc) where
  owned := owned.owned
  freed other ring inside := by
    rw [IoSystem.goto_pcs] at inside
    split at inside
    · exact freed ring inside
    · exact owned.freed other ring inside

/-- A ring buffer may be freed at any time. -/
theorem freeRing (owned : RingsOwned sys) (ring : RbOwner) :
    RingsOwned { sys with io := sys.io.freeRing ring } where
  owned other made := by
    by_cases same : other = ring
    · simp [CeIo.freeRing, same] at made
    · exact owned.owned other (by simpa [CeIo.freeRing, same] using made)
  freed worker other inside := by
    by_cases same : other = ring
    · simp [CeIo.freeRing, same]
    · simpa [CeIo.freeRing, same] using owned.freed worker other inside

/-- The record itself may be freed when both its ring buffers are. -/
theorem freeRecord (owned : RingsOwned sys) {worker : Fin n} {record : RecordId}
    (place : sys.pcs worker = .deleting .record record) :
    RingsOwned { sys with io := { sys.io with
      records := Function.update sys.io.records record none } } where
  owned ring made other inside := by
    by_cases same : other = record
    · -- Every ring of the record was freed by its job.
      have gone : ring ∈ (sys.pcs worker).freedRings := by
        rw [place]
        cases ring with
        | enqueueFdEvent | pushFdEvent => cases inside
        | enqueueBuffer | pushBuffer =>
          cases inside
          simp [WorkerPc.freedRings, same]
      exact absurd (made.symm.trans (owned.freed worker ring gone)) (by simp)
    · simpa [same] using owned.owned ring made other inside
  freed := owned.freed

/-- Every step of the callers and the workers keeps it. -/
theorem step (owned : RingsOwned sys) (acc : Accounted sys trace) {drains : Processor → FdEvent}
    {action : IoAction n} {events : List IoEvent}
    (taken : (ioMachine n drains).step sys action = some (next, events)) : RingsOwned next := by
  cases action with
  | call api =>
    obtain ⟨rfl, -⟩ := ioMachine_call taken
    exact owned.call acc api
  | work worker send =>
    cases IoSystem.work_move taken with
    | take item others place first =>
      have taken_ : RingsOwned { sys with io := { sys.io with
          workers := { sys.io.workers with workerQueue := others } } } :=
        owned.called rfl (fun _ => rfl)
      -- A delete job that starts has not freed anything.
      refine taken_.goto ?_
      intro ring inside
      cases item <;> cases inside
    | pop processor record ring place first =>
      have popped : RingsOwned { sys with io := sys.io.setEvents ring (drains processor) } := by
        cases drains processor with
        | enqueue | push => exact owned.called rfl (fun _ => rfl)
      exact popped.goto (fun _ inside => nomatch inside)
    | leave | lock | unlock => exact owned.goto (fun _ inside => nomatch inside)
    | loop processor record ioFd place held =>
      let done := processorLoop sys.io send ioFd processor
      have deletes := sys.io.afterLoop_deletes record done
      have looped : RingsOwned { sys with io := sys.io.afterLoop record done } := by
        refine owned.called deletes.rings ?_
        intro other
        rw [deletes.records]
        exact CeIo.isSome_setRecord held done.state other
      have noted : RingsOwned { sys with
          io := sys.io.afterLoop record done
          failed := if done.events.any (·.isException) then record :: sys.failed else sys.failed } :=
        ⟨looped.owned, looped.freed⟩
      exact noted.goto (fun _ inside => nomatch inside)
    | freeEnqueueBuffer record place free =>
      refine (owned.freeRing (.enqueueBuffer record)).goto ?_
      intro ring inside
      cases List.mem_singleton.mp inside
      simp [CeIo.freeRing]
    | freePushBuffer record place free =>
      refine (owned.freeRing (.pushBuffer record)).goto ?_
      intro ring inside
      rcases List.mem_pair.mp inside with rfl | rfl
      · -- The job has freed the other buffer before.
        have before := owned.freed worker (.enqueueBuffer record) (by simp [place, WorkerPc.freedRings])
        simpa [CeIo.freeRing] using before
      · simp [CeIo.freeRing]
    | freeRecord record place =>
      exact (owned.freeRecord place).goto (fun _ inside => nomatch inside)

end RingsOwned

end Cevent
