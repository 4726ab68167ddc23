import Cevent.Io.Sending
import Cevent.Io.Stream
import Cevent.Io.Workers

/-! When a connection record stays silent after `on_exception` was called for it. -/

namespace Cevent

open Interleaving

/-- The loop over a record's buffer has nothing to work on. -/
def NothingToDo (io : CeIo) (ioFd : CeIoFd) : Processor → Prop
  | .enqueue => Stalled io.host io.conf.perMaxPacketBodySize ioFd.enqueueBuffer.content
  | .push => ioFd.pushBuffer.content = []

/-- Some `on_exception` was called for the record. -/
def FailedIn (record : RecordId) (trace : List IoEvent) : Prop :=
  ∃ call, .callback record call ∈ trace ∧ call.isException = true

/-- No callback is made for a record once `on_exception` was called for it. -/
def SilentOnceFailed (trace : List IoEvent) : Prop :=
  -- Any callback counts, also a second `on_exception`.
  ∀ before record call after, trace = before ++ .callback record call :: after →
    ¬ FailedIn record before

/-- The processor and the record of a worker whose next step is the loop over the record's buffer. -/
def WorkerPc.aboutToLoop : WorkerPc → Option (Processor × RecordId)
  | .locked processor record => some (processor, record)
  | _ => none

/-- Whenever a processor comes to a failed record, it finds nothing to work on. -/
def FailedIdle {n : Nat} (sys : IoSystem n) : IoAction n → Prop
  | .call _ => True
  -- Both processors are meant, and the one that failed may come back to the record.
  | .work worker _ => ∀ place ∈ (sys.pcs worker).aboutToLoop, place.2 ∈ sys.failed →
      ∀ ioFd ∈ sys.io.records place.2, NothingToDo sys.io ioFd place.1

instance decidableStalled (order : ByteOrder) (limit : UInt16) :
    (bytes : Bytes) → Decidable (Stalled order limit bytes)
  | [] | [_] | [_, _] => isTrue trivial
  | first :: second :: third :: rest =>
    have := decidableStalled order limit (third :: rest)
    inferInstanceAs (Decidable (if packetLenAt order first second = 0 then _ else _ ∧ _))

instance (io : CeIo) (ioFd : CeIoFd) :
    (processor : Processor) → Decidable (NothingToDo io ioFd processor)
  | .enqueue => inferInstanceAs (Decidable (Stalled ..))
  | .push => inferInstanceAs (Decidable (_ = _))

instance {n : Nat} (sys : IoSystem n) : (action : IoAction n) → Decidable (FailedIdle sys action)
  | .call _ => isTrue trivial
  | .work _ _ => inferInstanceAs (Decidable (∀ _ ∈ _, _))

/-- The loop of a processor calls nothing just when it has nothing to work on. -/
theorem processorLoop_events_eq_nil_iff (io : CeIo) (send : Int → Bytes → Int) (ioFd : CeIoFd)
    (processor : Processor) :
    (processorLoop io send ioFd processor).events = [] ↔ NothingToDo io ioFd processor := by
  cases processor with
  | enqueue =>
    -- What the enqueue loop calls is read off the bytes that wait.
    have parsed := (enqueueLoop_parse io.host io.conf.perMaxPacketBodySize ioFd).1
    rw [processorLoop, parsed, parseStream_calls_eq_nil_iff]
    rfl
  | push => exact pushLoop_events_eq_nil_iff send ioFd

/-- An exception is the last call that the loop of a processor makes. -/
theorem processorLoop_exception_last (io : CeIo) (send : Int → Bytes → Int) (ioFd : CeIoFd)
    (processor : Processor) : ExceptionLast (processorLoop io send ioFd processor).events := by
  cases processor with
  | enqueue =>
    have parsed := (enqueueLoop_parse io.host io.conf.perMaxPacketBodySize ioFd).1
    rw [processorLoop, parsed]
    exact parseStream_exception_last ..
  | push => exact pushLoop_exception_last send ioFd

/-- A record has failed after more events when it had before, or when one of them is its exception. -/
theorem failedIn_append (record : RecordId) (before events : List IoEvent) :
    FailedIn record (before ++ events) ↔ FailedIn record before ∨ FailedIn record events := by
  -- An event of the longer trace stands in one of the two parts.
  simp only [FailedIn, List.mem_append, or_and_right, exists_or]

/-- The callbacks of one loop are exceptions of that loop's record only. -/
theorem failedIn_callbacks (record other : RecordId) (calls : List IoCall) :
    FailedIn record (calls.map (.callback other)) ↔
      record = other ∧ calls.any (·.isException) = true := by
  simp only [FailedIn, List.mem_map, List.any_eq_true]
  constructor
  · rintro ⟨call, ⟨made, inside, same⟩, exception⟩
    cases same
    exact ⟨rfl, call, inside, exception⟩
  · rintro ⟨rfl, call, inside, exception⟩
    exact ⟨call, ⟨call, inside, rfl⟩, exception⟩

/-- A longer trace is silent when the shorter one is, and none of the new callbacks comes too late. -/
theorem silentOnceFailed_append (before events : List IoEvent) :
    SilentOnceFailed (before ++ events) ↔ SilentOnceFailed before ∧
      ∀ early record call late, events = early ++ .callback record call :: late →
        ¬ FailedIn record (before ++ early) := by
  constructor
  · intro silent
    constructor
    · -- A callback of the old trace has the same events before it.
      intro early record call late split
      exact silent early record call (late ++ events) (by simp [split])
    · intro early record call late split
      exact silent (before ++ early) record call late (by simp [split])
  · rintro ⟨silent, now⟩ early record call late split
    -- The callback in question stands either in the old trace or among the new events.
    rcases List.append_eq_append_iff.mp split with ⟨more, rfl, inside⟩ | ⟨more, rfl, inside⟩
    · exact now more record call late inside
    · cases more with
      | nil => simpa using now [] record call late (by simpa using inside.symm)
      | cons first rest =>
        obtain ⟨rfl, -⟩ := List.cons.inj inside
        exact silent early record call rest rfl

/-- Events that are no callbacks never come too late. -/
theorem silentOnceFailed_append_plain {before events : List IoEvent}
    (plain : ∀ record call, .callback record call ∉ events) :
    SilentOnceFailed (before ++ events) ↔ SilentOnceFailed before := by
  rw [silentOnceFailed_append]
  apply and_iff_left
  intro early record call late split
  exact absurd (by simp [split]) (plain record call)

/-- The callbacks of one loop come too late when there are any and its record has failed before. -/
theorem silentOnceFailed_append_callbacks {before : List IoEvent} {record : RecordId}
    {calls : List IoCall} (last : ExceptionLast calls) :
    SilentOnceFailed (before ++ calls.map (.callback record)) ↔
      SilentOnceFailed before ∧ (FailedIn record before → calls = []) := by
  rw [silentOnceFailed_append]
  apply and_congr_right'
  constructor
  · intro late failed
    cases calls with
    | nil => rfl
    | cons first rest =>
      -- The first callback of the loop comes after all that was there before.
      have early := late [] record first (rest.map (.callback record)) rfl
      rw [List.append_nil] at early
      exact absurd failed early
  · intro idle early other call late split failed
    -- Before the callback in question, this loop has called no `on_exception`.
    obtain ⟨made, others, rfl, rfl, tail⟩ := List.map_eq_append_iff.mp split
    obtain ⟨first, rest, rfl, same, -⟩ := List.map_eq_cons_iff.mp tail
    cases same
    rw [failedIn_append, failedIn_callbacks, last.before rfl] at failed
    simpa using idle (failed.resolve_right (by simp))

/-- The note of failed records is right. -/
def FailedNoted {n : Nat} (sys : IoSystem n) (trace : List IoEvent) : Prop :=
  ∀ record, record ∈ sys.failed ↔ FailedIn record trace

/-- A step that calls nothing out leaves the note right. -/
theorem FailedNoted.plain {n : Nat} {sys next : IoSystem n} {before events : List IoEvent}
    (noted : FailedNoted sys before) (same : next.failed = sys.failed)
    (plain : ∀ record call, .callback record call ∉ events) : FailedNoted next (before ++ events) := by
  intro record
  rw [same, noted record, failedIn_append]
  -- Nothing that was shown can be an exception.
  apply (or_iff_left _).symm
  rintro ⟨call, inside, -⟩
  exact plain record call inside

/-- Every step leaves the note right, and comes too late just when it finds work on a failed record. -/
theorem FailedNoted.step {n : Nat} {drains : Processor → FdEvent} {sys next : IoSystem n}
    {action : IoAction n} {before events : List IoEvent} (noted : FailedNoted sys before)
    (taken : (ioMachine n drains).step sys action = some (next, events)) :
    FailedNoted next (before ++ events) ∧
      (SilentOnceFailed before → (SilentOnceFailed (before ++ events) ↔ FailedIdle sys action)) := by
  cases action with
  | call api =>
    obtain ⟨rfl, rfl⟩ := ioMachine_call taken
    -- A call returns and makes no callback.
    have plain : ∀ record call, IoEvent.callback record call ∉
        [IoEvent.returned api (ioCall sys.io api).2] := by simp
    refine ⟨noted.plain rfl plain, ?_⟩
    intro silent
    rw [silentOnceFailed_append_plain plain]
    exact iff_of_true silent trivial
  | work worker send =>
    -- Only a worker about to run a loop calls anything out.
    have elsewhere : ∀ next : IoSystem n, next.failed = sys.failed →
        (sys.pcs worker).aboutToLoop = none → FailedNoted next (before ++ []) ∧
          (SilentOnceFailed before →
            (SilentOnceFailed (before ++ []) ↔ FailedIdle sys (.work worker send))) := by
      intro next same away
      refine ⟨noted.plain same (by simp), ?_⟩
      intro silent
      rw [List.append_nil]
      refine iff_of_true silent ?_
      intro place inside
      rw [away] at inside
      cases inside
    cases IoSystem.work_move taken with
    | take _ _ place _ | pop _ _ _ place _ | leave _ place _ | lock _ _ place _ | unlock _ _ place
    | freeEnqueueBuffer _ place _ | freePushBuffer _ place _ | freeRecord _ place =>
      exact elsewhere _ rfl (by rw [place]; rfl)
    | loop processor record ioFd place held =>
      constructor
      · intro other
        rw [failedIn_append, failedIn_callbacks, ← noted other, IoSystem.goto_failed]
        -- The note grows by this record just when the loop has called `on_exception` for it.
        split
        · rename_i exception
          rw [List.mem_cons, or_comm, and_iff_left exception]
        · rename_i calm
          simp [calm]
      · intro silent
        -- The loop is silent just when it has nothing to do, and else comes too late on a failed
        -- record.
        rw [silentOnceFailed_append_callbacks (processorLoop_exception_last ..),
          and_iff_right silent, processorLoop_events_eq_nil_iff, ← noted record]
        simp [FailedIdle, place, WorkerPc.aboutToLoop, held]

/--
Failed records stay silent just when the processors find nothing to work on whenever they come to one.

The io, its event rings and its workers may be in any state when the first step is taken.
-/
theorem silentOnceFailed_iff (n : Nat) (drains : Processor → FdEvent) (start : IoSystem n)
    (fresh : start.failed = []) (actions : List (IoAction n)) (last : IoSystem n)
    (trace : List IoEvent)
    (ran : (ioMachine n drains).exec start actions = some (last, trace)) :
    SilentOnceFailed trace ↔ (ioMachine n drains).Meets FailedIdle start actions := by
  refine (ioMachine n drains).exec_property_iff_meets FailedNoted ?_ ?_ ?_ ?_ ?_ ran
  · -- At the start nothing is noted, and nothing was shown.
    intro record
    simp [fresh, FailedIn]
  · intro before record call after split
    simp at split
  · intro sys before action next events noted taken
    exact (noted.step taken).1
  · -- A callback that came too late stays in the trace.
    intro before events silent
    exact ((silentOnceFailed_append before events).mp silent).1
  · intro sys before action next events noted silent taken
    exact (noted.step taken).2 silent

/-- An io with one connection, whose enqueue buffer holds the given bytes and has two events queued. -/
def queuedTwice (bytes : Bytes) : CeIo :=
  let io := ceIoNew .little dictTypeInt smallConf
  let ioFd := newIoFd 7 smallConf.perCacheRingbufferSize smallConf.ringPositive
  let source : RbSource := { bytes := bytes, count := bytes.length, backed := length_backs bytes }
  let filled := { ioFd with enqueueBuffer := (ioFd.enqueueBuffer.write source).1 }
  { io with
    ioDict := (dictAdd io.ioDict 7 0).1
    records := Function.update io.records 0 (some filled)
    allocated := 1
    pushFdEvent := ((io.pushFdEvent.write 0).1.write 0).1
    workers := { workerQueue := [.enqueueProcessor], abort := false } }

/-- A worker that takes a job and goes through two queued events. -/
def twoRounds : List (IoAction 1) := List.replicate 8 (.work onlyThread sendAll)

/-- With two bytes left behind an illegal size, the second event finds nothing to work on. -/
theorem silentOnceFailed_two_bytes_left : ∃ last trace,
    (ioMachine 1 sourceDrains).exec (IoSystem.atRest 1 (queuedTwice [9, 0, 1, 0])) twoRounds =
      some (last, trace) ∧ SilentOnceFailed trace := by
  obtain ⟨⟨last, trace⟩, ran⟩ := Option.isSome_iff_exists.mp (by rfl :
    ((ioMachine 1 sourceDrains).exec (IoSystem.atRest 1 (queuedTwice [9, 0, 1, 0]))
      twoRounds).isSome)
  exact ⟨last, trace, ran, (silentOnceFailed_iff 1 sourceDrains _ rfl _ _ _ ran).mpr (by decide)⟩

/-- With a packet left behind an illegal size, the second event delivers it after the exception. -/
theorem not_silentOnceFailed_packet_left : ∃ last trace,
    (ioMachine 1 sourceDrains).exec (IoSystem.atRest 1 (queuedTwice [9, 0, 1, 0, 5])) twoRounds =
      some (last, trace) ∧
    trace = [.callback 0 (.onException 7 .packetIllegal), .callback 0 (.onReceived 7 [5] 1)] ∧
    ¬ SilentOnceFailed trace := by
  refine ⟨_, _, rfl, rfl, ?_⟩
  intro silent
  -- The delivery is the callback that stands behind the exception.
  apply silent [.callback 0 (.onException 7 .packetIllegal)] 0 (.onReceived 7 [5] 1) [] rfl
  exact ⟨.onException 7 .packetIllegal, List.mem_singleton.mpr rfl, rfl⟩

end Cevent
