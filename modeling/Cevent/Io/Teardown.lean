import Cevent.Io.Accounts

/-! `ce_io_destory` among the callers and workers of an io, and what becomes of the connections. -/

namespace Cevent

open Interleaving

/-- Where `ce_io_destory` stands. -/
inductive IoDestroyer where
  /-- It was not called. -/
  | notCalled
  /-- In its loop over the registry, with the records that the iterator has still to come to. -/
  | visiting (records : List RecordId)
  /-- In `ce_tp_destroy`, asleep until the queue of the pool is empty. -/
  | draining
  /-- The queue was seen empty. -/
  | aborting
  /-- The threads of the pool are told to exit. -/
  | joining
  /-- The io is freed. -/
  | freed
  deriving DecidableEq, Repr

/-- An io system and the one call of `ce_io_destory`. -/
structure TeardownSystem (n : Nat) where
  sys : IoSystem n
  destroyer : IoDestroyer

/-- A step of a caller or a worker, or of `ce_io_destory`. -/
inductive TeardownAction (n : Nat) where
  | io (action : IoAction n)
  | destroy

/-- A worker in the pool that is told to exit. -/
def IoSystem.exits {n : Nat} (sys : IoSystem n) : IoAction n → Bool
  | .call _ => false
  | .work worker _ => sys.io.workers.abort && sys.pcs worker = .idle

/-- The next step of `ce_io_destory`, when it can take one. -/
def TeardownSystem.destroy {n : Nat} (system : TeardownSystem n) : Option (TeardownSystem n) :=
  let io := system.sys.io
  let withIo (io : CeIo) (destroyer : IoDestroyer) : TeardownSystem n :=
    { sys := { system.sys with io := io }, destroyer := destroyer }
  match system.destroyer with
  | .notCalled => some (withIo { io with stop := true } (.visiting io.registered))
  | .visiting [] => some (withIo io .draining)
  -- The loop over the registry, where the record of an entry is its value as in `findIoFd`, calls
  -- `ce_io_del` after the stop flag was set.
  | .visiting (record :: others) =>
    match io.records record with
    | none => none
    | some ioFd => some (withIo (ceIoDel io ioFd.fd).1 (.visiting others))
  | .draining =>
    some (withIo io (if io.workers.workerQueue = [] then .aborting else .draining))
  | .aborting => some (withIo { io with workers := { io.workers with abort := true } } .joining)
  -- The threads are joined, so each is out of its job.
  | .joining =>
    if ∀ worker, system.sys.pcs worker = .idle then
      -- Jobs that are left in the queue are freed without being run, and then the two event rings.
      let io := { io with workers := { io.workers with workerQueue := [] } }
      some (withIo ((io.freeRing .enqueueFdEvent).freeRing .pushFdEvent) .freed)
    else none
  | .freed => none

/-- An io that is torn down at some time; the trace lists the records that are freed. -/
def teardownMachine (n : Nat) (drains : Processor → FdEvent) :
    Machine (TeardownSystem n) (TeardownAction n) RecordId where
  step system
    | .io action =>
      -- A freed io is not used, and a worker that exits does no step.
      if system.destroyer = .freed ∨ system.sys.exits action then none
      else ((ioMachine n drains).step system.sys action).map fun next =>
        ({ system with sys := next.1 }, system.sys.frees action)
    | .destroy => system.destroy.map fun next => (next, [])

/-- A step is one of the callers and workers of an io that is not freed, or one of `ce_io_destory`. -/
inductive TeardownMove {n : Nat} (drains : Processor → FdEvent) (system : TeardownSystem n) :
    TeardownAction n → TeardownSystem n → List RecordId → Prop where
  | io (action : IoAction n) (sys : IoSystem n) (shown : List IoEvent)
      (alive : system.destroyer ≠ .freed)
      (stepped : (ioMachine n drains).step system.sys action = some (sys, shown)) :
    TeardownMove drains system (.io action) { system with sys := sys } (system.sys.frees action)
  | destroy (next : TeardownSystem n) (stepped : system.destroy = some next) :
    TeardownMove drains system .destroy next []

/-- There are no other steps. -/
theorem teardownMachine_move {n : Nat} {drains : Processor → FdEvent}
    {system next : TeardownSystem n} {action : TeardownAction n} {events : List RecordId}
    (taken : (teardownMachine n drains).step system action = some (next, events)) :
    TeardownMove drains system action next events := by
  cases action with
  | io action =>
    simp only [teardownMachine] at taken
    split at taken
    · cases taken
    · rename_i goes
      obtain ⟨⟨sys, shown⟩, stepped, made⟩ := Option.map_eq_some_iff.mp taken
      obtain ⟨rfl, rfl⟩ := Prod.mk.inj made
      exact .io action sys shown (fun freed => goes (.inl freed)) stepped
  | destroy =>
    obtain ⟨after, stepped, made⟩ := Option.map_eq_some_iff.mp taken
    obtain ⟨rfl, rfl⟩ := Prod.mk.inj made
    exact .destroy after stepped

/-- Before anything is done with an io. -/
def TeardownSystem.start (n : Nat) (io : CeIo) : TeardownSystem n where
  sys := .atRest n io
  destroyer := .notCalled

/-- Every connection was released, and no ring buffer of the io is left. -/
structure ReleasesAll {n : Nat} (last : TeardownSystem n) (trace : List RecordId) : Prop where
  registry : last.sys.io.ioDict.entries = []
  /-- The delete job of every record has run to its end once. -/
  deletedOnce : ∀ record < last.sys.io.allocated, trace.count record = 1
  /-- No record is left. -/
  freed : ∀ record, last.sys.io.records record = none
  /-- No ring buffer is left, of a record or of the io. -/
  rings : ∀ ring, last.sys.io.rings ring = false

/-- When `ce_io_destory` is called, the registry is empty. -/
def DestroysEmpty {n : Nat} (system : TeardownSystem n) : TeardownAction n → Prop
  | .io _ => True
  | .destroy => system.destroyer = .notCalled → system.sys.io.ioDict.entries = []

/-- No step of the callers and the workers sets one of the flags. -/
theorem ioMachine_flags {n : Nat} {drains : Processor → FdEvent} {sys next : IoSystem n}
    {action : IoAction n} {events : List IoEvent}
    (taken : (ioMachine n drains).step sys action = some (next, events)) :
    next.io.stop = sys.io.stop ∧ next.io.workers.abort = sys.io.workers.abort := by
  -- The flags are the destroyer's, and the calls and jobs only read them.
  cases action with
  | call api =>
    obtain ⟨rfl, -⟩ := ioMachine_call taken
    cases api with
    | add fd =>
      rcases ceIoAdd_cases sys.io fd with ⟨-, refused⟩ | ⟨-, -, added⟩
      · simp only [ioCall, refused, and_self]
      · simp only [ioCall, added]
        exact ⟨rfl, rfl⟩
    | enqueue fd arg =>
      have writes := ceIoEnqueue_writes sys.io fd arg
      exact ⟨writes.stop, writes.abort⟩
    | push pushType fd arg =>
      have writes := ceIoPush_writes sys.io pushType fd arg
      exact ⟨writes.stop, writes.abort⟩
    | del fd =>
      have deletes := ceIoDel_deletes sys.io fd
      exact ⟨deletes.stop, deletes.abort⟩
  | work worker send =>
    cases IoSystem.work_move taken with
    | pop processor record ring place first => cases drains processor <;> exact ⟨rfl, rfl⟩
    | loop processor record ioFd place held =>
      have deletes := sys.io.afterLoop_deletes record (processorLoop sys.io send ioFd processor)
      exact ⟨deletes.stop, deletes.abort⟩
    | take | leave | lock | unlock | freeEnqueueBuffer | freePushBuffer | freeRecord => exact ⟨rfl, rfl⟩

/-- On a stopped io, every call is refused. -/
theorem ioCall_stopped {io : CeIo} (stopped : io.stop = true) (api : IoApi) :
    ioCall io api = (io, false) := by
  have runs : ∀ call : StreamCall, ioCall io call.api = (io, false) := by
    intro call
    apply ioCall_unfound
    intro looks
    rw [looks.2.2] at stopped
    cases stopped
  cases api with
  | add fd => simp [ioCall, ceIoAdd, stopped]
  | enqueue fd arg => exact runs (.enqueue fd arg)
  | push pushType fd arg => exact runs (.push pushType fd arg)
  | del fd => simp [ioCall, ceIoDel, stopped]

/-- So is the `ce_io_del` of a processor that finds an illegal packet. -/
theorem afterLoop_stopped {io : CeIo} (stopped : io.stop = true) (record : RecordId)
    (done : BoundedLoop.Pass CeIoFd IoCall LoopExit) :
    io.afterLoop record done = io.setRecord record done.state := by
  unfold CeIo.afterLoop
  dsimp only
  split
  · -- The flag is seen before anything else.
    have still : (io.setRecord record done.state).stop = true := stopped
    exact congrArg Prod.fst (ioCall_stopped still (.del done.state.fd))
  · rfl

/-- On a stopped io, the registry stays as it is, and no job is registered. -/
theorem ioMachine_stopped {n : Nat} {drains : Processor → FdEvent} {sys next : IoSystem n}
    {action : IoAction n} {events : List IoEvent} (stopped : sys.io.stop = true)
    (taken : (ioMachine n drains).step sys action = some (next, events)) :
    next.io.ioDict = sys.io.ioDict ∧
      next.io.workers.workerQueue <:+ sys.io.workers.workerQueue := by
  cases action with
  | call api =>
    obtain ⟨rfl, -⟩ := ioMachine_call taken
    rw [ioCall_stopped stopped]
    exact ⟨rfl, List.suffix_rfl⟩
  | work worker send =>
    -- The jobs that are left are taken from the front.
    cases IoSystem.work_move taken with
    | take item others place first =>
      refine ⟨rfl, ?_⟩
      rw [first]
      exact List.suffix_cons item others
    | pop processor record ring place first =>
      cases drains processor <;> exact ⟨rfl, List.suffix_rfl⟩
    | loop processor record ioFd place held =>
      simp only [IoSystem.goto_io, afterLoop_stopped stopped]
      exact ⟨rfl, List.suffix_rfl⟩
    | leave | lock | unlock | freeEnqueueBuffer | freePushBuffer | freeRecord =>
      exact ⟨rfl, List.suffix_rfl⟩

/-- What `ce_io_destory` does in a step, at each of its stages. -/
inductive DestroyMove {n : Nat} (system : TeardownSystem n) : TeardownSystem n → Prop where
  | stop (at_ : system.destroyer = .notCalled) :
    DestroyMove system
      { sys := { system.sys with io := { system.sys.io with stop := true } }
        destroyer := .visiting system.sys.io.registered }
  | visit (record : RecordId) (others : List RecordId) (ioFd : CeIoFd)
      (at_ : system.destroyer = .visiting (record :: others))
      (held : system.sys.io.records record = some ioFd) :
    DestroyMove system
      { sys := { system.sys with io := (ceIoDel system.sys.io ioFd.fd).1 }
        destroyer := .visiting others }
  | visited (at_ : system.destroyer = .visiting []) :
    DestroyMove system { system with destroyer := .draining }
  | sleep (at_ : system.destroyer = .draining) : DestroyMove system system
  | seenEmpty (at_ : system.destroyer = .draining)
      (empty : system.sys.io.workers.workerQueue = []) :
    DestroyMove system { system with destroyer := .aborting }
  | abort (at_ : system.destroyer = .aborting) :
    DestroyMove system
      { sys := { system.sys with
          io := { system.sys.io with workers := { system.sys.io.workers with abort := true } } }
        destroyer := .joining }
  | join (at_ : system.destroyer = .joining) (exited : ∀ worker, system.sys.pcs worker = .idle) :
    DestroyMove system
      { sys := { system.sys with
          io := (({ system.sys.io with
            workers := { system.sys.io.workers with workerQueue := [] } } : CeIo).freeRing
              .enqueueFdEvent).freeRing .pushFdEvent }
        destroyer := .freed }

/-- A step of `ce_io_destory` is one of these. -/
theorem TeardownSystem.destroy_move {n : Nat} {system next : TeardownSystem n}
    (taken : system.destroy = some next) : DestroyMove system next := by
  unfold TeardownSystem.destroy at taken
  cases at_ : system.destroyer with
  | notCalled =>
    simp only [at_] at taken
    cases taken
    exact .stop at_
  | visiting records =>
    simp only [at_] at taken
    cases records with
    | nil =>
      cases taken
      exact .visited at_
    | cons record others =>
      simp only at taken
      split at taken
      · cases taken
      · rename_i ioFd held
        cases taken
        exact .visit record others ioFd at_ held
  | draining =>
    simp only [at_] at taken
    cases taken
    by_cases empty : system.sys.io.workers.workerQueue = []
    · rw [if_pos empty]
      exact .seenEmpty at_ empty
    · -- It goes back to sleep, and nothing has changed.
      rw [if_neg empty, ← at_]
      exact .sleep at_
  | aborting =>
    simp only [at_] at taken
    cases taken
    exact .abort at_
  | joining =>
    simp only [at_] at taken
    split at taken
    · rename_i exited
      cases taken
      exact .join at_ exited
    · cases taken
  | freed =>
    simp only [at_] at taken
    cases taken

/-- The stages of `ce_io_destory` in which the queue of the pool was seen empty. -/
def IoDestroyer.pastDraining : IoDestroyer → Bool
  | .aborting | .joining | .freed => true
  | .notCalled | .visiting _ | .draining => false

/-- What holds of the io and its records while it is torn down. -/
structure TeardownInv {n : Nat} (system : TeardownSystem n) (trace : List RecordId) : Prop where
  accounted : Accounted system.sys trace
  owned : RingsOwned system.sys
  alive : system.sys.io.stop = false → system.sys.io.workers.abort = false
  stopped : system.destroyer ≠ .notCalled → system.sys.io.stop = true
  drained : system.destroyer.pastDraining = true → system.sys.io.workers.workerQueue = []
  idle : system.destroyer = .freed → ∀ worker, system.sys.pcs worker = .idle
  /-- The event rings go last. -/
  events : system.destroyer = .freed → ∀ ring : RbOwner, ring.record = none →
    system.sys.io.rings ring = false

namespace TeardownInv

variable {n : Nat} {system next : TeardownSystem n} {trace : List RecordId}

/-- A step of a caller or a worker keeps it. -/
theorem io (inv : TeardownInv system trace) {drains : Processor → FdEvent} {action : IoAction n}
    {sys : IoSystem n} {events : List IoEvent} (alive : system.destroyer ≠ .freed)
    (taken : (ioMachine n drains).step system.sys action = some (sys, events)) :
    TeardownInv { system with sys := sys } (trace ++ system.sys.frees action) := by
  obtain ⟨stop, abort⟩ := ioMachine_flags taken
  refine ⟨inv.accounted.step inv.alive taken, inv.owned.step inv.accounted taken, ?_, ?_, ?_,
    fun freed => absurd freed alive, fun freed => absurd freed alive⟩
  · rw [stop, abort]
    exact inv.alive
  · rw [stop]
    exact inv.stopped
  · intro past
    have called : system.destroyer ≠ .notCalled := by
      intro early
      simp [early, IoDestroyer.pastDraining] at past
    have shrinks := (ioMachine_stopped (inv.stopped called) taken).2
    rw [inv.drained past] at shrinks
    exact List.suffix_nil.mp shrinks

/-- On a stopped io whose pool is not told to exit, it is about the records alone. -/
theorem early {sys : IoSystem n} {destroyer : IoDestroyer} (accounted : Accounted sys trace)
    (owned : RingsOwned sys) (stopped : sys.io.stop = true) (at_ : destroyer.pastDraining = false) :
    TeardownInv { sys := sys, destroyer := destroyer } trace where
  accounted := accounted
  owned := owned
  alive running := absurd (stopped.symm.trans running) (by simp)
  stopped _ := stopped
  drained past := absurd (at_.symm.trans past) (by simp)
  -- A freed io is past draining.
  idle ended := by
    have freed : destroyer = .freed := ended
    rw [freed] at at_
    cases at_
  events ended := by
    have freed : destroyer = .freed := ended
    rw [freed] at at_
    cases at_

/-- So does a step of `ce_io_destory`. -/
theorem destroy (inv : TeardownInv system trace) (taken : system.destroy = some next) :
    TeardownInv next trace := by
  have stopped := inv.stopped
  have drained := inv.drained
  cases TeardownSystem.destroy_move taken with
  | stop at_ =>
    exact early ⟨inv.accounted.once, inv.accounted.held⟩ ⟨inv.owned.owned, inv.owned.freed⟩ rfl rfl
  | visit record others ioFd at_ held =>
    -- The stop flag is set, so `ce_io_del` refuses.
    have still := stopped (by simp [at_])
    have refused : ceIoDel system.sys.io ioFd.fd = _ := ioCall_stopped still (.del ioFd.fd)
    rw [refused]
    exact early inv.accounted inv.owned still rfl
  | visited at_ => exact early inv.accounted inv.owned (stopped (by simp [at_])) rfl
  | sleep at_ => exact inv
  | seenEmpty at_ empty =>
    have still := stopped (by simp [at_])
    exact ⟨inv.accounted, inv.owned, inv.alive, fun _ => still, fun _ => empty,
      (fun ended => nomatch ended), fun ended => nomatch ended⟩
  | abort at_ =>
    have still := stopped (by simp [at_])
    have empty := drained (by simp [at_, IoDestroyer.pastDraining])
    refine ⟨⟨inv.accounted.once, inv.accounted.held⟩, ⟨inv.owned.owned, inv.owned.freed⟩, ?_,
      fun _ => still, fun _ => empty, (fun ended => nomatch ended), fun ended => nomatch ended⟩
    intro running
    exact absurd (still.symm.trans running) (by simp)
  | join at_ exited =>
    have still := stopped (by simp [at_])
    have empty := drained (by simp [at_, IoDestroyer.pastDraining])
    let quiet : IoSystem n := { system.sys with io := { system.sys.io with
      workers := { system.sys.io.workers with workerQueue := [] } } }
    have owned : RingsOwned quiet := inv.owned.called rfl (fun _ => rfl)
    refine ⟨⟨?_, inv.accounted.held⟩, (owned.freeRing .enqueueFdEvent).freeRing .pushFdEvent,
      inv.alive, fun _ => still, fun _ => rfl, fun _ => exited, ?_⟩
    · -- The queue that is freed has no delete job left in it.
      intro record
      have before := inv.accounted.once record
      rw [IoSystem.places, CeIo.waiting, empty] at before
      exact before
    · intro _ ring event
      cases ring with
      | enqueueFdEvent | pushFdEvent => simp [CeIo.freeRing]
      | enqueueBuffer | pushBuffer => cases event

/-- Either step keeps it. -/
theorem step (inv : TeardownInv system trace) {drains : Processor → FdEvent}
    {action : TeardownAction n} {events : List RecordId}
    (taken : (teardownMachine n drains).step system action = some (next, events)) :
    TeardownInv next (trace ++ events) := by
  cases teardownMachine_move taken with
  | io action sys shown alive stepped => exact inv.io alive stepped
  | destroy _ stepped =>
    rw [List.append_nil]
    exact inv.destroy stepped

/-- Once the io is freed, all connections were released just when the registry is empty. -/
theorem released_iff_empty (inv : TeardownInv system trace) (ended : system.destroyer = .freed) :
    ReleasesAll system trace ↔ system.sys.io.ioDict.entries = [] := by
  constructor
  · intro released
    exact released.registry
  · intro empty
    have queue := inv.drained (by simp [ended, IoDestroyer.pastDraining])
    have nobody : ∀ record,
        holders (fun worker => (system.sys.pcs worker).deletes) record = 0 := by
      intro record
      apply holders_eq_zero_iff.mpr
      intro worker
      rw [inv.idle ended worker]
      simp [WorkerPc.deletes]
    -- With no place left where a record could be, each was freed.
    have once : ∀ record, trace.count record =
        if record < system.sys.io.allocated then 1 else 0 := by
      intro record
      have account := inv.accounted.once record
      rw [IoSystem.places, nobody, CeIo.waiting, CeIo.registered, empty, queue] at account
      simpa using account
    have gone : ∀ record, system.sys.io.records record = none := by
      intro record
      have held := inv.accounted.held record
      rw [← Option.not_isSome_iff_eq_none, held]
      intro both
      have one := once record
      rw [if_pos both.1, List.count_eq_zero_of_not_mem both.2] at one
      cases one
    refine ⟨empty, ?_, gone, ?_⟩
    · intro record below
      rw [once, if_pos below]
    · intro ring
      cases owner : ring.record with
      | none => exact inv.events ended ring owner
      | some record =>
        -- An allocated ring would have its record allocated.
        rw [← Bool.not_eq_true]
        intro made
        have held := inv.owned.owned ring made record owner
        simp [gone record] at held

/-- `ce_io_destory` takes nothing out of the registry. -/
theorem destroy_ioDict (inv : TeardownInv system trace) (taken : system.destroy = some next) :
    next.sys.io.ioDict = system.sys.io.ioDict ∧ next.destroyer ≠ .notCalled := by
  cases TeardownSystem.destroy_move taken with
  | visit record others ioFd at_ held =>
    have still := inv.stopped (by simp [at_])
    have refused : ceIoDel system.sys.io ioFd.fd = _ := ioCall_stopped still (.del ioFd.fd)
    rw [refused]
    exact ⟨rfl, fun early => nomatch early⟩
  | sleep at_ => exact ⟨rfl, by simp [at_]⟩
  | stop | visited | seenEmpty | abort | join => exact ⟨rfl, fun early => nomatch early⟩

/-- After the call, the registry is empty just when it was empty at the call. -/
theorem empty_step_iff (inv : TeardownInv system trace) {drains : Processor → FdEvent}
    {action : TeardownAction n} {events : List RecordId}
    (taken : (teardownMachine n drains).step system action = some (next, events)) :
    (next.destroyer ≠ .notCalled → next.sys.io.ioDict.entries = []) ↔
      (system.destroyer ≠ .notCalled → system.sys.io.ioDict.entries = []) ∧
        DestroysEmpty system action := by
  cases teardownMachine_move taken with
  | io action sys shown alive stepped =>
    refine Iff.trans ?_ (and_iff_left trivial).symm
    apply imp_congr_right
    intro called
    -- From the call on, the io is stopped.
    have same := (ioMachine_stopped (inv.stopped called) stepped).1
    rw [same]
  | destroy _ stepped =>
    obtain ⟨same, called⟩ := inv.destroy_ioDict stepped
    rw [same, forall_prop_of_true called, DestroysEmpty]
    -- The first step of the destroyer is the call itself.
    by_cases first : system.destroyer = .notCalled
    · simp [first]
    · simp [first]

end TeardownInv

/--
`ce_io_destory` releases every connection, its record and both its ring buffers, just when none is
registered at the time of the call.

The calls before it and the steps of the workers may come in any order.
-/
theorem releasesAll_iff (n : Nat) (drains : Processor → FdEvent) (host : ByteOrder)
    (type : DictType Int) (conf : CeConf) {actions : List (TeardownAction n)}
    {last : TeardownSystem n} {trace : List RecordId}
    (ran : (teardownMachine n drains).exec (TeardownSystem.start n (ceIoNew host type conf)) actions =
      some (last, trace))
    (ended : last.destroyer = .freed) :
    ReleasesAll last trace ↔ (teardownMachine n drains).Meets DestroysEmpty
      (TeardownSystem.start n (ceIoNew host type conf)) actions := by
  let m := teardownMachine n drains
  have fresh : TeardownInv (TeardownSystem.start n (ceIoNew host type conf)) [] :=
    { accounted := .new n host type conf
      owned := .new n host type conf
      alive := fun _ => rfl
      stopped := fun called => absurd rfl called
      drained := fun past => nomatch past
      idle := fun ended => nomatch ended
      events := fun ended => nomatch ended }
  have keep : ∀ (system : TeardownSystem n) (before : List RecordId) (action : TeardownAction n)
      (next : TeardownSystem n) (events : List RecordId), TeardownInv system before →
      m.step system action = some (next, events) → TeardownInv next (before ++ events) :=
    fun _ _ _ _ _ inv taken => inv.step taken
  -- At the end the call has been made, so the property is about the registry alone.
  have called : last.destroyer ≠ .notCalled := by simp [ended]
  have late : (last.destroyer ≠ .notCalled → last.sys.io.ioDict.entries = []) ↔
      last.sys.io.ioDict.entries = [] := forall_prop_of_true called
  rw [(m.exec_invariant TeardownInv fresh keep ran).released_iff_empty ended, ← late]
  refine m.exec_iff_meets TeardownInv
    (fun system _ => system.destroyer ≠ .notCalled → system.sys.io.ioDict.entries = [])
    fresh (fun called => absurd rfl called) keep ?_ ran
  intro system before action next events reached taken
  exact reached.empty_step_iff taken

/-- The steps of a worker from taking a delete job to its end. -/
def deleteJob : List (TeardownAction 1) := List.replicate 4 (.io (.work onlyThread sendAll))

/-- An io whose one connection was deleted before, and its delete job run, releases it. -/
theorem releasesAll_iff_deleted_before : ∃ last trace,
    (teardownMachine 1 sourceDrains).exec
      (TeardownSystem.start 1 (ceIoNew .little dictTypeInt smallConf))
      ([.io (.call (.add 7)), .io (.call (.del 7))] ++ deleteJob ++ List.replicate 5 .destroy) =
        some (last, trace) ∧
    (ReleasesAll last trace ↔ (teardownMachine 1 sourceDrains).Meets DestroysEmpty
      (TeardownSystem.start 1 (ceIoNew .little dictTypeInt smallConf))
      ([.io (.call (.add 7)), .io (.call (.del 7))] ++ deleteJob ++ List.replicate 5 .destroy)) :=
  ⟨_, _, rfl, releasesAll_iff 1 sourceDrains .little dictTypeInt smallConf rfl rfl⟩

/-- An io with one connection is freed, and its record and both its rings stay allocated. -/
theorem not_releasesAll_one_connection : ∃ last trace,
    (teardownMachine 1 sourceDrains).exec
      (TeardownSystem.start 1 (ceIoNew .little dictTypeInt smallConf))
      (.io (.call (.add 7)) :: List.replicate 6 .destroy) = some (last, trace) ∧
    last.destroyer = .freed ∧ trace = [] ∧ (last.sys.io.records 0).isSome ∧
    last.sys.io.rings (.enqueueBuffer 0) = true ∧ last.sys.io.rings (.pushBuffer 0) = true ∧
    ¬ ReleasesAll last trace := by
  refine ⟨_, _, rfl, rfl, rfl, rfl, by decide, by decide, ?_⟩
  -- The record of the connection is still there.
  intro released
  exact absurd (congrArg Option.isSome (released.freed 0)) (by decide)

end Cevent
