import Cevent.Io.Push
import Cevent.Io.Streams

/-! The events that `ce_io_enqueue` queues, and the records that the enqueue processor takes out. -/

namespace Cevent

open Interleaving

/-- What can be seen of the way of an event. -/
inductive HandOff where
  /-- A successful `ce_io_enqueue` has queued a record. -/
  | queued (record : RecordId)
  /-- An enqueue processor has come to a record. -/
  | visited (record : RecordId)
  deriving DecidableEq, Repr

/-- What a step shows of it. -/
def IoSystem.handOff {n : Nat} (sys : IoSystem n) : IoAction n → IoSystem n → List HandOff
  | .call (.enqueue fd arg), _ =>
    -- The record is the one that the call's lookup leads to.
    if (ceIoEnqueue sys.io fd arg).2 then
      ((sys.io.findIoFd fd).map fun found => HandOff.queued found.1).toList
    else []
  | .call (.add _), _ | .call (.push _ _ _), _ | .call (.del _), _ => []
  | .work worker _, next =>
    match next.pcs worker with
    -- The processor has just read the pointer out of the ring.
    | .popped .enqueue record => [.visited record]
    | _ => []

/-- The io machine, seen so. -/
def handOffMachine (n : Nat) (drains : Processor → FdEvent) :
    Machine (IoSystem n) (IoAction n) HandOff :=
  (ioMachine n drains).observe IoSystem.handOff

/-- The records that were queued, in the order of the calls. -/
def queuedRecords : List HandOff → List RecordId :=
  List.filterMap fun
    | .queued record => some record
    | .visited _ => none

/-- The records that enqueue processors came to, in that order. -/
def visitedRecords : List HandOff → List RecordId :=
  List.filterMap fun
    | .queued _ => none
    | .visited record => some record

theorem queuedRecords_append (trace more : List HandOff) :
    queuedRecords (trace ++ more) = queuedRecords trace ++ queuedRecords more :=
  List.filterMap_append

theorem visitedRecords_append (trace more : List HandOff) :
    visitedRecords (trace ++ more) = visitedRecords trace ++ visitedRecords more :=
  List.filterMap_append

/-- Every event is consumed once, in the order of the calls. -/
structure HandedOver {n : Nat} (last : IoSystem n) (trace : List HandOff) : Prop where
  /-- No record is invented, visited twice or out of its turn. -/
  -- The prefix says this at every point of the run, and not only at its end.
  inOrder : visitedRecords trace <+: queuedRecords trace
  /-- Once all jobs have run, none is lost. -/
  all : last.Done → visitedRecords trace = queuedRecords trace
  consumed : last.Done → last.io.enqueueFdEvent.queued = []

/-- A step is no enqueue that comes to a connection on which everything succeeds. -/
def QueuesNothing {n : Nat} (sys : IoSystem n) (action : IoAction n) : Prop :=
  ∀ fd arg, action = .call (.enqueue fd arg) →
    sys.io.LooksUp (.enqueue fd arg) → ∀ record ioFd, sys.io.findIoFd fd = some (record, ioFd) →
      ¬ sys.io.Takes (.enqueue fd arg) ioFd

/-- `ce_io_push` queues no event. -/
theorem ceIoPush_enqueueFdEvent (io : CeIo) (pushType : CePushType) (fd : Int) (arg : PacketArg) :
    (ceIoPush io pushType fd arg).1.enqueueFdEvent = io.enqueueFdEvent := by
  -- Whatever the push writes, it writes to the record and to the pool.
  unfold ceIoPush
  split
  · rfl
  · split_ifs
    · rfl
    · rfl
    · split
      · rfl
      · dsimp only
        split_ifs <;> rfl

/-- While the pool takes jobs, `ce_io_enqueue` queues the record it finds just when it returns true. -/
theorem ceIoEnqueue_queued {io : CeIo} (alive : io.workers.abort = false) (fd : Int)
    (arg : PacketArg) :
    ((ceIoEnqueue io fd arg).2 = false ∧
        (ceIoEnqueue io fd arg).1.enqueueFdEvent.queued = io.enqueueFdEvent.queued) ∨
      ((ceIoEnqueue io fd arg).2 = true ∧ ∃ record ioFd, io.findIoFd fd = some (record, ioFd) ∧
        (ceIoEnqueue io fd arg).1.enqueueFdEvent.queued =
          io.enqueueFdEvent.queued ++ [record]) := by
  -- Each early return comes before the event is written, or for want of room for it.
  unfold ceIoEnqueue
  split
  · exact .inl ⟨rfl, rfl⟩
  · split_ifs
    · exact .inl ⟨rfl, rfl⟩
    · exact .inl ⟨rfl, rfl⟩
    · split
      · exact .inl ⟨rfl, rfl⟩
      · rename_i record ioFd found
        dsimp only
        split_ifs with short whole
        · exact .inl ⟨rfl, rfl⟩
        · -- The event is queued, and the processor registered for it.
          refine .inr ⟨?_, record, ioFd, found, ?_⟩
          · rw [CeIo.register_result]
            exact alive
          · simp only [CeIo.register, CeIo.setRecord, EventRing.write_queued]
            exact if_pos whole
        · refine .inl ⟨rfl, ?_⟩
          simp only [EventRing.write_queued, CeIo.setRecord]
          exact if_neg whole

/-- Nothing was taken out of the ring that events are queued in. -/
structure HandOffInv {n : Nat} (sys : IoSystem n) (trace : List HandOff) : Prop where
  nothing : NothingPopped sys []
  alive : sys.io.workers.abort = false
  queued : sys.io.enqueueFdEvent.queued = queuedRecords trace
  visited : visitedRecords trace = []

/-- A worker that has come to no record shows nothing. -/
theorem handOff_work_of_free {n : Nat} (sys : IoSystem n) {next : IoSystem n} {worker : Fin n}
    (send : Int → Bytes → Int) (free : (next.pcs worker).visits = none) :
    sys.handOff (.work worker send) next = [] := by
  rw [IoSystem.handOff]
  split
  · -- A worker that has just popped a record would visit it.
    rename_i record place
    rw [place] at free
    cases free
  · rfl

/-- A step that queues what it shows keeps the count. -/
theorem HandOffInv.snoc {n : Nat} {sys next : IoSystem n} {trace events : List HandOff}
    (inv : HandOffInv sys trace) (nothing : NothingPopped next [])
    (alive : next.io.workers.abort = sys.io.workers.abort)
    (queued : next.io.enqueueFdEvent.queued =
      sys.io.enqueueFdEvent.queued ++ queuedRecords events)
    (visited : visitedRecords events = []) : HandOffInv next (trace ++ events) where
  nothing := nothing
  alive := alive.trans inv.alive
  queued := by rw [queued, inv.queued, queuedRecords_append]
  visited := by rw [visitedRecords_append, inv.visited, visited, List.append_nil]

/-- The processors of the source drain the other ring, so no step takes anything out of this one. -/
theorem HandOffInv.step {n : Nat} {sys next : IoSystem n} {action : IoAction n}
    {trace events : List HandOff} (inv : HandOffInv sys trace)
    (seen : (handOffMachine n sourceDrains).step sys action = some (next, events)) :
    HandOffInv next (trace ++ events) := by
  obtain ⟨⟨own, taken⟩, rfl⟩ := (ioMachine n sourceDrains).observe_step.mp seen
  -- The ring that the processors drain stays empty, so nobody visits anything.
  have stays := inv.nothing.step taken
  have nothing : NothingPopped next [] := ⟨stays.queued, stays.visits, by simp⟩
  cases action with
  | call api =>
    obtain ⟨rfl, -⟩ := Prod.mk.inj (Option.some.inj taken)
    cases api with
    | add fd =>
      rcases ceIoAdd_cases sys.io fd with ⟨-, refused⟩ | ⟨-, -, added⟩
      · exact inv.snoc nothing (by simp [refused]) (by simp [refused]; rfl) rfl
      · refine inv.snoc nothing ?_ ?_ rfl
        · simp [added]
        · simp [added]
          rfl
    | enqueue fd arg =>
      -- A `ce_io_enqueue` shows the record that it has queued, or nothing.
      have same := (ceIoEnqueue_writes sys.io fd arg).abort
      rcases ceIoEnqueue_queued inv.alive fd arg with ⟨failed, stays⟩ |
        ⟨succeeds, record, ioFd, found, grown⟩
      · refine inv.snoc nothing same ?_ ?_
        · simp [IoSystem.handOff, failed, queuedRecords, stays]
        · simp [IoSystem.handOff, failed, visitedRecords]
      · refine inv.snoc nothing same ?_ ?_
        · simp [IoSystem.handOff, succeeds, found, queuedRecords, grown]
        · simp [IoSystem.handOff, succeeds, found, visitedRecords]
    | push pushType fd arg =>
      refine inv.snoc nothing (ceIoPush_writes sys.io pushType fd arg).abort ?_ rfl
      simp only [ceIoPush_enqueueFdEvent]
      exact (List.append_nil _).symm
    | del fd =>
      -- A deletion leaves the events of its record where they are.
      have deletes := ceIoDel_deletes sys.io fd
      refine inv.snoc nothing deletes.abort ?_ rfl
      simp only [deletes.enqueueFdEvent]
      exact (List.append_nil _).symm
  | work worker send =>
    rw [handOff_work_of_free sys send (nothing.visits worker)]
    have free := inv.nothing.visits worker
    cases IoSystem.work_move taken with
    | loop processor record ioFd place _ =>
      -- A worker at its loop would visit a record.
      rw [place] at free
      cases free
    | take | pop | leave | lock | unlock | freeEnqueueBuffer | freePushBuffer | freeRecord =>
      exact inv.snoc nothing rfl (List.append_nil _).symm rfl

/-- An enqueue that queues nothing shows nothing, and any other one shows a record. -/
theorem queuesNothing_iff {n : Nat} {sys next : IoSystem n} {action : IoAction n}
    (nothing : NothingPopped next []) :
    QueuesNothing sys action ↔ queuedRecords (sys.handOff action next) = [] := by
  cases action with
  | call api =>
    cases api with
    | enqueue fd arg =>
      have result : (ceIoEnqueue sys.io fd arg).2 = true ↔ _ :=
        ioCall_result_iff sys.io (.enqueue fd arg)
      constructor
      · -- An enqueue that returned true would have succeeded in everything.
        intro none_
        have fails : ¬ (ceIoEnqueue sys.io fd arg).2 = true := by
          intro succeeds
          obtain ⟨looks, record, ioFd, found, takes⟩ := result.mp succeeds
          exact none_ fd arg rfl looks record ioFd found takes
        rw [IoSystem.handOff, if_neg fails]
        rfl
      · -- An enqueue on which everything succeeds shows the record that it queues.
        intro silent fd' arg' is looks record ioFd found takes
        cases is
        have succeeds := result.mpr ⟨looks, record, ioFd, found, takes⟩
        rw [IoSystem.handOff, if_pos succeeds, found] at silent
        cases silent
    | add fd | push pushType fd arg | del fd =>
      refine iff_of_true ?_ rfl
      intro fd' arg' is
      cases is
  | work worker send =>
    rw [handOff_work_of_free sys send (nothing.visits worker)]
    exact iff_of_true (fun fd arg is => by cases is) rfl

/-- Once all jobs have run, every event was consumed just when there was none. -/
theorem HandOffInv.over_iff_none_queued {n : Nat} {last : IoSystem n} {trace : List HandOff}
    (inv : HandOffInv last trace) (done : last.Done) :
    HandedOver last trace ↔ queuedRecords trace = [] := by
  constructor
  · -- Nothing was visited, so all events can be consumed only if there are none.
    intro ended
    rw [← ended.all done]
    exact inv.visited
  · intro none_
    constructor
    · rw [inv.visited]
      exact List.nil_prefix
    · intro _
      rw [inv.visited, none_]
    · intro _
      rw [inv.queued, none_]

/--
Once all jobs have run, every queued event was consumed just when no `ce_io_enqueue` queued one.

The calls may be made in any order, and the workers may take their steps in any order.
-/
theorem handedOver_iff (n : Nat) (host : ByteOrder) (type : DictType Int) (conf : CeConf)
    {actions : List (IoAction n)} {last : IoSystem n} {trace : List HandOff}
    (ran : (handOffMachine n sourceDrains).exec (IoSystem.atRest n (ceIoNew host type conf)) actions =
      some (last, trace))
    (done : last.Done) :
    HandedOver last trace ↔ (handOffMachine n sourceDrains).Meets QueuesNothing
      (IoSystem.atRest n (ceIoNew host type conf)) actions := by
  let m := handOffMachine n sourceDrains
  -- Nothing was taken out of the ring in which events are queued, all along the run.
  have fresh : HandOffInv (IoSystem.atRest n (ceIoNew host type conf)) [] :=
    ⟨⟨rfl, fun _ => rfl, by simp⟩, rfl, rfl, rfl⟩
  have keep : ∀ (sys : IoSystem n) (before : List HandOff) (action : IoAction n)
      (next : IoSystem n) (events : List HandOff), HandOffInv sys before →
      m.step sys action = some (next, events) → HandOffInv next (before ++ events) :=
    fun _ _ _ _ _ inv taken => inv.step taken
  rw [(m.exec_invariant HandOffInv fresh keep ran).over_iff_none_queued done]
  refine m.exec_iff_meets HandOffInv (fun _ trace => queuedRecords trace = []) fresh rfl keep ?_ ran
  intro sys before action next events reached taken
  -- So whether events are left over is decided by what each step queues.
  have stays := (keep sys before action next events reached taken).nothing
  obtain ⟨-, rfl⟩ := (ioMachine n sourceDrains).observe_step.mp taken
  rw [queuesNothing_iff stays, queuedRecords_append, List.append_eq_nil_iff]

/-- An io whose one enqueue finds no connection has no event to consume. -/
theorem handedOver_iff_unregistered : ∃ last trace,
    (handOffMachine 1 sourceDrains).exec (IoSystem.atRest 1 (ceIoNew .little dictTypeInt smallConf))
      [.call (.add 7), .call (.enqueue 8 oneByteArg)] = some (last, trace) ∧
    (HandedOver last trace ↔ (handOffMachine 1 sourceDrains).Meets QueuesNothing
      (IoSystem.atRest 1 (ceIoNew .little dictTypeInt smallConf))
      [.call (.add 7), .call (.enqueue 8 oneByteArg)]) :=
  ⟨_, _, rfl, handedOver_iff 1 .little dictTypeInt smallConf rfl ⟨rfl, by decide⟩⟩

/-- One event is queued, its job has run to the end, and the event is where it was. -/
theorem not_handedOver_one_enqueue : ∃ last trace,
    (handOffMachine 1 sourceDrains).exec (IoSystem.atRest 1 (ceIoNew .little dictTypeInt smallConf))
      [.call (.add 7), .call (.enqueue 7 oneByteArg), .work 0 sendAll, .work 0 sendAll] =
        some (last, trace) ∧
    last.Done ∧ queuedRecords trace = [0] ∧ visitedRecords trace = [] ∧
    last.io.enqueueFdEvent.queued = [0] ∧ ¬ HandedOver last trace := by
  refine ⟨_, _, rfl, ⟨rfl, by decide⟩, rfl, rfl, rfl, ?_⟩
  intro ended
  exact absurd (ended.all ⟨rfl, by decide⟩) (by decide)

end Cevent
