import Cevent.Io.Streams
import Cevent.Io.Workers

/-! What becomes of pushed packets: they never reach the wire, and they fill the buffer for received ones. -/

namespace Cevent

open Interleaving

/-- All jobs have run: none waits in the pool, and no worker is in one. -/
def IoSystem.Done {n : Nat} (sys : IoSystem n) : Prop :=
  sys.io.workers.workerQueue = [] ∧ ∀ worker, sys.pcs worker = .idle

/-- The bytes of a packet that a caller passes. -/
def PacketArg.body (arg : PacketArg) : Bytes := (arg.data.getD []).take arg.size.toNat

/-- The packets that were pushed to an fd by calls that returned true. -/
def pushedBodies (fd : Int) : List IoEvent → List Bytes :=
  List.filterMap fun
    -- Only a push to the fd itself is to reach it.
    | .returned (.push .pushFd fd' arg) true => if fd' = fd then some arg.body else none
    | _ => none

/-- The bytes that were enqueued for an fd, whatever the calls returned. -/
def enqueuedBytes (fd : Int) : List IoEvent → Bytes :=
  List.flatMap fun
    | .returned (.enqueue fd' arg) _ => if fd' = fd then arg.body else []
    | _ => []

/-- The bytes that were handed to `send` for an fd. -/
def sentBytes (fd : Int) : List IoEvent → Bytes :=
  List.flatMap fun
    | .callback _ (.send fd' data) => if fd' = fd then data else []
    | _ => []

/-- The bytes that were passed to `on_received` for an fd. -/
def receivedBytes (fd : Int) : List IoEvent → Bytes :=
  List.flatMap fun
    | .callback _ (.onReceived fd' data _) => if fd' = fd then data else []
    | _ => []

/-- A push leaves the enqueue buffer of every record as it is. -/
def PushKeepsReceived {n : Nat} (sys : IoSystem n) (action : IoAction n) : Prop :=
  ∀ pushType fd arg, action = .call (.push pushType fd arg) → ∀ record,
    ((ceIoPush sys.io pushType fd arg).1.records record).map (·.enqueueBuffer.content) =
      (sys.io.records record).map (·.enqueueBuffer.content)

/-- An enqueue leaves the push buffer of every record as it is. -/
def EnqueueKeepsPushed {n : Nat} (sys : IoSystem n) (action : IoAction n) : Prop :=
  ∀ fd arg, action = .call (.enqueue fd arg) → ∀ record,
    ((ceIoEnqueue sys.io fd arg).1.records record).map (·.pushBuffer.content) =
      (sys.io.records record).map (·.pushBuffer.content)

/-- Over a run, pushed packets reach the wire, and the two directions do not touch each other. -/
structure StreamsSeparate {n : Nat} (start : IoSystem n) (actions : List (IoAction n))
    (last : IoSystem n) (trace : List IoEvent) : Prop where
  /-- Once all jobs have run, the bytes sent are the packets pushed, in the order of the calls. -/
  sent : last.Done → ∀ fd, sentBytes fd trace = encodeFrames start.io.host (pushedBodies fd trace)
  pushes : (ioMachine n sourceDrains).Meets PushKeepsReceived start actions
  /-- Whatever is received was enqueued. -/
  received : ∀ fd, (receivedBytes fd trace).Sublist (enqueuedBytes fd trace)
  enqueues : (ioMachine n sourceDrains).Meets EnqueueKeepsPushed start actions

/--
A push is refused before it writes a byte.

Its arguments are refused, the io is stopped, the fd is not registered, or its enqueue buffer is full.
-/
def PushRefused {n : Nat} (sys : IoSystem n) (action : IoAction n) : Prop :=
  ∀ pushType fd arg, action = .call (.push pushType fd arg) →
    -- Else at least one byte of the size field is stored.
    arg.data = none ∨ fd ≤ 0 ∨ arg.size = 0 ∨ sys.io.stop = true ∨
      ∀ record ioFd, sys.io.findIoFd fd = some (record, ioFd) → ioFd.enqueueBuffer.room = 0

/-- A push that is refused leaves all content as it is, and returns false. -/
theorem ceIoPush_of_refused {io : CeIo} (pushType : CePushType) {fd : Int} {arg : PacketArg}
    (refused : arg.data = none ∨ fd ≤ 0 ∨ arg.size = 0 ∨ io.stop = true ∨
      ∀ record ioFd, io.findIoFd fd = some (record, ioFd) → ioFd.enqueueBuffer.room = 0) :
    (ceIoPush io pushType fd arg).2 = false ∧
      ∀ record, ((ceIoPush io pushType fd arg).1.records record).map (·.enqueueBuffer.content) =
        (io.records record).map (·.enqueueBuffer.content) := by
  by_cases unfound : io.LooksUp (.push pushType fd arg) → io.findIoFd fd = none
  · -- The push does not come to a connection.
    have unchanged : ceIoPush io pushType fd arg = (io, false) := ioCall_unfound unfound
    rw [unchanged]
    exact ⟨rfl, fun _ => rfl⟩
  · obtain ⟨looks, bytes, record, ioFd, given, found⟩ := CeIo.comes_to_connection unfound
    have stores : io.Stores _ record ioFd bytes (ceIoPush io pushType fd arg).1
        (ceIoPush io pushType fd arg).2 := ioCall_stores given looks found
    -- Only the last ground for refusal is met after a record was found.
    have full : ioFd.enqueueBuffer.room = 0 := by
      rcases refused with absent | negative | empty | stop | full
      · exact absurd absent looks.1
      · exact absurd (.inl negative) looks.2.1
      · exact absurd (.inr empty) looks.2.1
      · rw [looks.2.2] at stop
        cases stop
      · exact full record ioFd found
    have held := (CeIo.findIoFd_eq_some_iff.mp found).choose_spec.2.2
    obtain ⟨buffer, records, content⟩ := stores.filled
    rw [full, List.take_zero, List.append_nil] at content
    constructor
    · -- With no room at all there is none for the size field.
      have short : ¬ io.Takes (.push pushType fd arg) ioFd := by
        intro takes
        have needed := Nat.lt_of_lt_of_le looks.needed_pos takes.1
        rw [full] at needed
        cases needed
      exact Bool.not_eq_true _ ▸ mt stores.result.mp short
    · intro other
      rw [records]
      by_cases same : other = record
      · simp [same, held, content]
      · simp [same]

/-- A push that is not refused fills the enqueue buffer of the record it finds. -/
theorem ceIoPush_fills {io : CeIo} (pushType : CePushType) {fd : Int} {arg : PacketArg}
    {bytes : Bytes} {record : RecordId} {ioFd : CeIoFd} (given : arg.data = some bytes)
    (legal : ¬ (fd ≤ 0 ∨ arg.size = 0)) (running : io.stop = false)
    (found : io.findIoFd fd = some (record, ioFd)) (room : 0 < ioFd.enqueueBuffer.room) :
    ∃ filled, (ceIoPush io pushType fd arg).1.records record = some filled ∧
      ioFd.enqueueBuffer.content.length < filled.enqueueBuffer.content.length := by
  obtain ⟨buffer, records, content⟩ := (ceIoPush_stores pushType given legal running found).filled
  have width := length_packetLenBytes io.host arg.size
  refine ⟨{ ioFd with enqueueBuffer := buffer }, by rw [records, Function.update_self], ?_⟩
  -- At least the first byte of the size field finds room.
  rw [content, StreamCall.stored]
  simp only [List.length_append, List.length_take, width, packetLenSize]
  omega

/-- A push leaves the enqueue buffers alone just when it is refused. -/
theorem pushKeepsReceived_iff {n : Nat} (sys : IoSystem n) (action : IoAction n) :
    PushKeepsReceived sys action ↔ PushRefused sys action := by
  constructor
  · intro keeps pushType fd arg is
    -- A push that is accepted makes the buffer of its connection longer.
    by_contra accepted
    simp only [not_or, not_forall] at accepted
    obtain ⟨given, positive, nonempty, running, record, ioFd, found, room⟩ := accepted
    obtain ⟨bytes, given⟩ := Option.ne_none_iff_exists'.mp given
    obtain ⟨filled, held, longer⟩ := ceIoPush_fills pushType given
      (not_or.mpr ⟨positive, nonempty⟩) (Bool.not_eq_true _ ▸ running) found
      (Nat.pos_of_ne_zero room)
    have same := keeps pushType fd arg is record
    rw [held, (CeIo.findIoFd_eq_some_iff.mp found).choose_spec.2.2] at same
    have equal : filled.enqueueBuffer.content = ioFd.enqueueBuffer.content := by
      simpa using same
    rw [equal] at longer
    exact Nat.lt_irrefl _ longer
  · intro refused pushType fd arg is
    -- A refused push writes nothing.
    exact (ceIoPush_of_refused pushType (refused pushType fd arg is)).2

/-- An enqueue never writes to a push buffer. -/
theorem enqueueKeepsPushed {n : Nat} (sys : IoSystem n) (action : IoAction n) :
    EnqueueKeepsPushed sys action := by
  -- All that a call can change of a record is its enqueue buffer.
  intro fd arg _ record
  rcases (ceIoEnqueue_writes sys.io fd arg).records record with same | ⟨ioFd, buffer, found, filled⟩
  · rw [same]
  · rw [filled, (CeIo.findIoFd_eq_some_iff.mp found).choose_spec.2.2]
    rfl

/-- No call writes to the ring that the processors drain. -/
theorem ioCall_pushFdEvent (io : CeIo) (api : IoApi) :
    (ioCall io api).1.pushFdEvent = io.pushFdEvent := by
  -- Only `ce_io_enqueue` queues an event at all, and it uses the other ring.
  cases api with
  | add fd =>
    rcases ceIoAdd_cases io fd with ⟨-, refused⟩ | ⟨-, -, added⟩
    · simp [ioCall, refused]
    · simp [ioCall, added]
  | enqueue fd arg => exact (ceIoEnqueue_writes io fd arg).pushFdEvent
  | push pushType fd arg => exact (ceIoPush_writes io pushType fd arg).pushFdEvent
  | del fd =>
    rcases ceIoDel_cases io fd with ⟨-, refused⟩ | ⟨-, -, entry, before, after, -, -, deleted⟩
    · simp [ioCall, refused]
    · simp [ioCall, deleted, CeIo.withDeleted]

/-- No processor ever gets hold of a record, and nothing is called out. -/
structure NothingPopped {n : Nat} (sys : IoSystem n) (trace : List IoEvent) : Prop where
  queued : sys.io.pushFdEvent.queued = []
  visits : ∀ worker, (sys.pcs worker).visits = none
  silent : ∀ event ∈ trace, ∃ api result, event = .returned api result

/-- Whatever is done with an io whose drained ring is empty, that ring stays empty. -/
theorem NothingPopped.step {n : Nat} {sys next : IoSystem n} {action : IoAction n}
    {before events : List IoEvent} (inv : NothingPopped sys before)
    (taken : (ioMachine n sourceDrains).step sys action = some (next, events)) :
    NothingPopped next (before ++ events) := by
  cases action with
  | call api =>
    obtain ⟨rfl, rfl⟩ := ioMachine_call taken
    refine ⟨?_, inv.visits, ?_⟩
    · -- The drained ring is empty before the call and is not touched by it.
      rw [ioCall_pushFdEvent]
      exact inv.queued
    · intro event inside
      rcases List.mem_append.mp inside with early | now
      · exact inv.silent event early
      · exact ⟨api, _, List.mem_singleton.mp now⟩
  | work worker send =>
    have move := IoSystem.work_move taken
    -- A worker that moves on without a record leaves all as it is.
    have moved : ∀ (io : CeIo) (pc : WorkerPc), io.pushFdEvent = sys.io.pushFdEvent →
        pc.visits = none → NothingPopped ({ sys with io := io }.goto worker pc) (before ++ []) := by
      intro io pc same free
      refine ⟨by rw [IoSystem.goto_io, same]; exact inv.queued, ?_, by simpa using inv.silent⟩
      intro other
      rw [IoSystem.goto_pcs]
      split
      · exact free
      · exact inv.visits other
    have free := inv.visits worker
    cases move with
    | take item others place first => exact moved _ _ rfl (by cases item <;> rfl)
    | pop processor record ring place first =>
      -- There is no record in the ring that a worker could take.
      have none_ : sys.io.pushFdEvent.pop = none := by
        unfold EventRing.pop
        split
        · rfl
        · rename_i waiting
          exact absurd (waiting.symm.trans inv.queued) (by simp)
      exact absurd (none_.symm.trans first) (by simp)
    | leave processor place drained => exact moved sys.io _ rfl rfl
    | lock processor record place _ | loop processor record _ place _ | unlock processor record place =>
      rw [place] at free
      cases free
    | freeEnqueueBuffer record place _ | freePushBuffer record place _ => exact moved _ _ rfl rfl
    | freeRecord record place => exact moved _ _ rfl rfl

/-- Calls that return show no byte that was sent or received. -/
theorem sentBytes_of_silent {fd : Int} {trace : List IoEvent}
    (silent : ∀ event ∈ trace, ∃ api result, event = .returned api result) :
    sentBytes fd trace = [] ∧ receivedBytes fd trace = [] := by
  constructor
  all_goals
    apply List.flatMap_eq_nil_iff.mpr
    intro event inside
    -- A return of a call is neither a send nor a delivery.
    obtain ⟨api, result, rfl⟩ := silent event inside
    rfl

/-- A refused push, and any other step, adds no packet that was pushed. -/
theorem pushedBodies_of_refused {n : Nat} {sys next : IoSystem n} {action : IoAction n}
    {events : List IoEvent} (refused : PushRefused sys action)
    (taken : (ioMachine n sourceDrains).step sys action = some (next, events)) (fd : Int) :
    pushedBodies fd events = [] := by
  cases action with
  | call api =>
    obtain ⟨-, rfl⟩ := ioMachine_call taken
    cases api with
    | push pushType fd' arg =>
      -- A refused push returns false, so its packet does not count.
      have failed := (ceIoPush_of_refused pushType (refused pushType fd' arg rfl)).1
      simp only [ioCall, failed]
      cases pushType <;> rfl
    | add | enqueue | del => rfl
  | work worker send =>
    cases IoSystem.work_move taken with
    | loop processor record ioFd place held =>
      apply List.filterMap_eq_nil_iff.mpr
      -- What a worker shows are callbacks.
      intro event inside
      obtain ⟨call, -, rfl⟩ := List.mem_map.mp inside
      rfl
    | take | pop | leave | lock | unlock | freeEnqueueBuffer | freePushBuffer | freeRecord => rfl

/--
Pushed packets reach the wire and stay apart from received ones just when no push writes anything.

Every push of the run must be refused at once, so none of them succeeds.
-/
theorem streamsSeparate_iff (n : Nat) (host : ByteOrder) (type : DictType Int) (conf : CeConf)
    (actions : List (IoAction n)) (last : IoSystem n) (trace : List IoEvent)
    (ran : (ioMachine n sourceDrains).exec (IoSystem.atRest n (ceIoNew host type conf)) actions =
      some (last, trace)) :
    StreamsSeparate (IoSystem.atRest n (ceIoNew host type conf)) actions last trace ↔
      (ioMachine n sourceDrains).Meets PushRefused (IoSystem.atRest n (ceIoNew host type conf))
        actions := by
  let m := ioMachine n sourceDrains
  -- The processors drain a ring that nothing ever writes to.
  have fresh : NothingPopped (IoSystem.atRest n (ceIoNew host type conf)) [] :=
    ⟨rfl, fun _ => rfl, by simp⟩
  have inv := m.exec_invariant NothingPopped fresh (fun _ _ _ _ _ inv taken => inv.step taken) ran
  constructor
  · -- A push that is not refused fills the buffer for received packets.
    intro separate
    exact m.meets_imp (fun sys action => (pushKeepsReceived_iff sys action).mp) separate.pushes
  · intro refused
    -- Refused pushes return false, so no pushed packet is owed to the wire.
    have owed : ∀ fd, pushedBodies fd trace = [] := by
      refine m.exec_invariant_of_meets (fun _ trace => ∀ fd, pushedBodies fd trace = [])
        (fun _ => rfl) ?_ ran refused
      intro sys before action next events none_ now taken fd
      rw [pushedBodies, List.filterMap_append]
      exact List.append_eq_nil_iff.mpr ⟨none_ fd, pushedBodies_of_refused now taken fd⟩
    refine ⟨?_, m.meets_imp (fun sys action => (pushKeepsReceived_iff sys action).mpr) refused, ?_,
      ?_⟩
    · intro _ fd
      rw [(sentBytes_of_silent inv.silent).1, owed]
      rfl
    · intro fd
      rw [(sentBytes_of_silent inv.silent).2]
      exact List.nil_sublist _
    · exact m.meets_imp (fun sys action _ => enqueueKeepsPushed sys action) refused

/-- An enqueued packet is left where it is by a push that finds no connection. -/
theorem streamsSeparate_iff_unregistered : ∃ last trace,
    (ioMachine 1 sourceDrains).exec (IoSystem.atRest 1 (ceIoNew .little dictTypeInt smallConf))
      [.call (.add 7), .call (.enqueue 7 oneByteArg), .call (.push .pushFd 8 oneByteArg)] =
        some (last, trace) ∧
    (StreamsSeparate (IoSystem.atRest 1 (ceIoNew .little dictTypeInt smallConf))
        [.call (.add 7), .call (.enqueue 7 oneByteArg), .call (.push .pushFd 8 oneByteArg)]
        last trace ↔
      (ioMachine 1 sourceDrains).Meets PushRefused
        (IoSystem.atRest 1 (ceIoNew .little dictTypeInt smallConf))
        [.call (.add 7), .call (.enqueue 7 oneByteArg), .call (.push .pushFd 8 oneByteArg)]) :=
  ⟨_, _, rfl, streamsSeparate_iff 1 .little dictTypeInt smallConf _ _ _ rfl⟩

/-- A packet that is pushed and accepted is not sent, though all jobs have run. -/
theorem not_streamsSeparate_one_push : ∃ last trace,
    (ioMachine 1 sourceDrains).exec (IoSystem.atRest 1 (ceIoNew .little dictTypeInt smallConf))
      [.call (.add 7), .call (.push .pushFd 7 oneByteArg), .work 0 sendAll, .work 0 sendAll] =
        some (last, trace) ∧
    last.Done ∧ pushedBodies 7 trace = [[5]] ∧ sentBytes 7 trace = [] ∧
    ¬ StreamsSeparate (IoSystem.atRest 1 (ceIoNew .little dictTypeInt smallConf))
      [.call (.add 7), .call (.push .pushFd 7 oneByteArg), .work 0 sendAll, .work 0 sendAll]
      last trace := by
  refine ⟨_, _, rfl, ⟨rfl, by decide⟩, rfl, rfl, ?_⟩
  -- One packet was pushed and none was sent.
  intro separate
  exact absurd (separate.sent ⟨rfl, by decide⟩ 7) (by decide)

end Cevent
