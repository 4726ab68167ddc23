import Cevent.Io.Push
import Cevent.Io.Registry
import Cevent.Server.Protocol

/-! The three tables of the server: the handlers of its event loop, its registry and its sockets. -/

namespace Cevent

open Interleaving

/-- The server, with processors that drain the given event rings. -/
def serverMachineWith (n : Nat) (drains : Processor → FdEvent) :
    Machine (ServerSystem n) (ServerAction n) ServerEvent where
  step server
    | .work worker send =>
      (server.system.work drains worker send).map fun (system, events) =>
        ({ server with system := system }, events.filterMap (·.serverEvent))
    -- The handlers of the event loop do not depend on which rings are drained.
    | action => (serverMachine n).step server action

/-- The three tables agree on every fd. -/
def ServerSystem.InStep {n : Nat} (server : ServerSystem n) : Prop :=
  -- Two equivalences, since the source keeps the three tables apart.
  ∀ fd, (server.handlers fd = true ↔ server.system.io.HasFd fd) ∧
    (server.system.io.HasFd fd ↔ server.sockets fd = true)

/-- The fd whose connection begins or ends with an event. -/
def ServerEvent.turns : ServerEvent → Option Int
  | .onAccept fd _ | .onClose fd => some fd
  | .received _ _ | .callback _ _ => none

/-- On an fd, each `on_accept` is followed by one `on_close`, save the last one of an open connection. -/
inductive ClosedOnce (fd : Int) : List ServerEvent → Bool → Prop where
  | nil : ClosedOnce fd [] false
  | accepted {trace : List ServerEvent} (record : RecordId) (closed : ClosedOnce fd trace false) :
      ClosedOnce fd (trace ++ [.onAccept fd record]) true
  | closed {trace : List ServerEvent} (opened : ClosedOnce fd trace true) :
      ClosedOnce fd (trace ++ [.onClose fd]) false
  | other {trace : List ServerEvent} {opened : Bool} (event : ServerEvent)
      (before : ClosedOnce fd trace opened) (apart : event.turns ≠ some fd) :
      ClosedOnce fd (trace ++ [event]) opened

/-- The books of the server are in order in a state that a run has reached. -/
structure BooksInStep {n : Nat} (last : ServerSystem n) (trace : List ServerEvent) : Prop where
  /-- With no job of the pool pending, the tables agree. -/
  inStep : last.system.Done → last.InStep
  closedOnce : ∀ fd, ClosedOnce fd trace (last.sockets fd)

/--
A step changes all three tables or none.

The registry takes the fd of an accepted socket whose read handler is installed. No read comes from fd 0,
which `ce_io_add` takes and `ce_io_enqueue` and `ce_io_del` do not. A processor's loop that fails does so
on a record whose fd is not registered.
-/
def ChangesAllOrNone {n : Nat} (server : ServerSystem n) : ServerAction n → Prop
  | .accept fd outcome => outcome = .installed → dictFind server.system.io.ioDict fd = none
  -- A connection that is closed was open, and so in all three.
  | .read fd _ => 0 < fd
  | .work worker send =>
    match server.system.pcs worker with
    | .locked processor record =>
      ∀ ioFd ∈ server.system.io.records record,
        (processorLoop server.system.io send ioFd processor).exit = some .fail →
          dictFind server.system.io.ioDict ioFd.fd = none
    | _ => True

/-- Where processors drain the rings of their events, this is the server of before. -/
theorem serverMachineWith_delivered (n : Nat) :
    serverMachineWith n deliveredDrains = serverMachine n := by
  have steps : (serverMachineWith n deliveredDrains).step = (serverMachine n).step := by
    funext server action
    cases action <;> rfl
  exact congrArg Machine.mk steps

/-- Events that begin and end no connection of the fd leave its connections as they are. -/
theorem ClosedOnce.others {fd : Int} {trace events : List ServerEvent} {opened : Bool}
    (before : ClosedOnce fd trace opened) (apart : ∀ event ∈ events, event.turns ≠ some fd) :
    ClosedOnce fd (trace ++ events) opened := by
  -- The events are appended one by one, so the trace grows under the induction.
  induction events generalizing trace with
  | nil => simpa using before
  | cons event rest ih =>
    obtain ⟨here, later⟩ := List.forall_mem_cons.mp apart
    have longer := ih (.other event before here) later
    simpa using longer

/-- The keys of the registry are different strings. -/
structure CeIo.KeysApart (io : CeIo) : Prop where
  type : io.ioDict.type = dictTypeHeapStrings
  distinct : (io.ioDict.entries.map fun entry => stringAt entry.key).Nodup

namespace CeIo.KeysApart

variable {io : CeIo} (apart : io.KeysApart)

include apart

/-- An entry that is found has the same string as the fd. -/
theorem string_of_found {fd : Int} {entry : DictEntry Int RecordId}
    (found : dictFind io.ioDict fd = some entry) : stringAt fd = stringAt entry.key := by
  have same := (dictFind_some found).2
  rwa [Dict.matchesKey, apart.type, dictTypeHeapStrings_sameKey] at same

/-- Two entries of the registry with the same string are one. -/
theorem entry_unique {entry other : DictEntry Int RecordId} (inside : entry ∈ io.ioDict.entries)
    (inside' : other ∈ io.ioDict.entries) (same : stringAt entry.key = stringAt other.key) :
    entry = other :=
  List.inj_on_of_nodup_map apart.distinct inside inside' same

/-- A registered fd is found, and under its own key. -/
theorem find_own {fd : Int} (registered : io.HasFd fd) :
    ∃ entry, dictFind io.ioDict fd = some entry ∧ entry.key = fd := by
  obtain ⟨own, inside, key⟩ := registered
  have some_ : (dictFind io.ioDict fd).isSome := by
    rw [dictFind_isSome_iff]
    refine ⟨own, inside, ?_⟩
    rw [Dict.matchesKey, apart.type, dictTypeHeapStrings_sameKey, key]
  obtain ⟨entry, found⟩ := Option.isSome_iff_exists.mp some_
  -- The lookup goes by the string, and only one entry has it.
  have same := apart.string_of_found found
  obtain rfl := apart.entry_unique inside (dictFind_some found).1 (by rw [key, same])
  exact ⟨own, found, key⟩

/-- An fd that was not found may be added, and is registered then. -/
theorem added {fd : Int} (absent : dictFind io.ioDict fd = none) :
    (io.withAdded fd).KeysApart ∧
      ∀ other, (io.withAdded fd).HasFd other ↔ other = fd ∨ io.HasFd other := by
  have unseen : ∀ entry ∈ io.ioDict.entries, stringAt fd ≠ stringAt entry.key := by
    intro entry inside same
    have some_ : (dictFind io.ioDict fd).isSome := by
      rw [dictFind_isSome_iff]
      refine ⟨entry, inside, ?_⟩
      rwa [Dict.matchesKey, apart.type, dictTypeHeapStrings_sameKey]
    rw [absent] at some_
    cases some_
  refine ⟨⟨apart.type, ?_⟩, ?_⟩
  · -- The new key is a string that was not there.
    simp only [CeIo.withAdded, CeIo.setRecord, List.map_append, List.map_cons, List.map_nil]
    apply apart.distinct.append (List.nodup_singleton _)
    intro string inside new
    obtain ⟨entry, old, key⟩ := List.mem_map.mp inside
    exact unseen entry old ((List.mem_singleton.mp new).symm.trans key.symm)
  · intro other
    constructor
    · intro has
      obtain ⟨entry, inside, key⟩ := has
      rcases List.mem_append.mp inside with old | new
      · exact .inr ⟨entry, old, key⟩
      · rw [List.mem_singleton.mp new] at key
        exact .inl key.symm
    · intro either
      rcases either with rfl | ⟨entry, inside, key⟩
      · exact ⟨_, List.mem_append_right _ (List.mem_singleton_self _), rfl⟩
      · exact ⟨entry, List.mem_append_left _ inside, key⟩

/-- A registered fd may be deleted, and no other goes with it. -/
theorem deleted {fd : Int} (running : io.stop = false) (positive : 0 < fd)
    (registered : io.HasFd fd) :
    (ceIoDel io fd).1.KeysApart ∧
      ∀ other, (ceIoDel io fd).1.HasFd other ↔ other ≠ fd ∧ io.HasFd other := by
  obtain ⟨own, foundOwn, key⟩ := apart.find_own registered
  rcases ceIoDel_cases io fd with ⟨negative | stopped | absent, -⟩ |
    ⟨-, -, entry, before, after, found, split, deleted⟩
  · omega
  · simp [running] at stopped
  · simp [absent] at foundOwn
  · obtain rfl : own = entry := Option.some.inj (foundOwn.symm.trans found)
    have fewer : (before ++ after).Sublist io.ioDict.entries := by
      rw [split]
      exact (List.append_sublist_append_left before).mpr (List.sublist_cons_self own after)
    -- Keys that are different strings belong to different entries.
    have gone : own ∉ before ++ after := by
      have nodup := apart.distinct.of_map
      rw [split, List.nodup_middle] at nodup
      exact (List.nodup_cons.mp nodup).1
    rw [deleted]
    refine ⟨⟨apart.type, apart.distinct.sublist (fewer.map _)⟩, ?_⟩
    intro other
    constructor
    · intro has
      obtain ⟨left, inside, leftKey⟩ := has
      refine ⟨?_, left, fewer.subset inside, leftKey⟩
      intro same
      -- It would be the entry that was taken out.
      have twin : left = own := apart.entry_unique (fewer.subset inside) (dictFind_some found).1
        (by rw [leftKey, same, key])
      exact gone (twin ▸ inside)
    · intro both
      obtain ⟨different, kept, inside, keptKey⟩ := both
      refine ⟨kept, ?_, keptKey⟩
      rw [split, List.mem_append, List.mem_cons] at inside
      rcases inside with early | same | late
      · exact List.mem_append_left _ early
      · rw [same, key] at keptKey
        exact absurd keptKey.symm different
      · exact List.mem_append_right _ late

end CeIo.KeysApart

/-- A loop that fails on a record whose fd is not found takes nothing out of the registry. -/
theorem CeIo.afterLoop_ioDict {io : CeIo} {record : RecordId}
    {done : BoundedLoop.Pass CeIoFd IoCall LoopExit}
    (absent : done.exit = some .fail → dictFind io.ioDict done.state.fd = none) :
    (io.afterLoop record done).ioDict = io.ioDict := by
  unfold afterLoop
  dsimp only
  split
  · rename_i failed
    rcases ceIoDel_cases (io.setRecord record done.state) done.state.fd with ⟨-, refused⟩ |
      ⟨-, -, entry, before, after, found, -⟩
    · rw [refused]
      rfl
    · have found : dictFind io.ioDict done.state.fd = some entry := found
      rw [absent failed] at found
      cases found
  · rfl

/-- What holds of the three tables, and of the callbacks that a connection begins and ends with. -/
structure BooksInv {n : Nat} (server : ServerSystem n) (trace : List ServerEvent) : Prop where
  running : server.system.io.stop = false
  apart : server.system.io.KeysApart
  inStep : server.InStep
  closedOnce : ∀ fd, ClosedOnce fd trace (server.sockets fd)

namespace BooksInv

variable {n : Nat} {server : ServerSystem n} {trace : List ServerEvent}

/-- A server that was just started has nothing in its tables. -/
theorem started (n : Nat) (host : ByteOrder) (conf : CeConf) :
    BooksInv (ServerSystem.started n host dictTypeHeapStrings conf) [] where
  -- All three tables are empty.
  running := rfl
  apart := ⟨rfl, .nil⟩
  inStep := by
    intro fd
    simp [ServerSystem.started, IoSystem.atRest, ceIoNew, dictCreate, CeIo.HasFd]
  closedOnce := fun _ => .nil

/-- A step that leaves the tables alone keeps the books. -/
theorem same (inv : BooksInv server trace) {system : IoSystem n} {events : List ServerEvent}
    (stop : system.io.stop = server.system.io.stop)
    (ioDict : system.io.ioDict = server.system.io.ioDict)
    (apart : ∀ event ∈ events, event.turns = none) :
    BooksInv { server with system := system } (trace ++ events) := by
  have has : system.io.HasFd = server.system.io.HasFd := by
    funext fd
    rw [CeIo.HasFd, CeIo.HasFd, ioDict]
  refine ⟨stop.trans inv.running, ⟨?_, ?_⟩, ?_, ?_⟩
  · rw [ioDict]
    exact inv.apart.type
  · rw [ioDict]
    exact inv.apart.distinct
  · intro fd
    have before := inv.inStep fd
    rwa [← has] at before
  · intro fd
    apply (inv.closedOnce fd).others
    -- The events begin and end no connection.
    intro event inside
    rw [apart event inside]
    simp

/-- An accepted fd that the registry takes is entered in all three tables. -/
theorem accepted (inv : BooksInv server trace) {fd : Int} (free : server.sockets fd = false) (absent : dictFind server.system.io.ioDict fd = none) :
    BooksInv (server.aeAcceptTcpHandler fd .installed).1
      (trace ++ (server.aeAcceptTcpHandler fd .installed).2) := by
  obtain ⟨apart, has⟩ := inv.apart.added absent
  -- The registry runs and does not know the fd, so it takes it.
  have added : ceIoAdd server.system.io fd = (server.system.io.withAdded fd, true) := by
    rcases ceIoAdd_cases server.system.io fd with ⟨stopped | found, -⟩ | ⟨-, -, added⟩
    · simp [inv.running] at stopped
    · simp [absent] at found
    · exact added
  simp only [ServerSystem.aeAcceptTcpHandler, ServerSystem.withIo, added, if_true]
  refine ⟨inv.running, apart, ?_, ?_⟩
  · intro other
    have before := inv.inStep other
    by_cases same : other = fd
    · simp [has, same]
    · simp [has, same, before]
  · intro other
    have before := inv.closedOnce other
    by_cases same : other = fd
    · subst same
      rw [free] at before
      simpa using before.accepted server.system.io.allocated
    · have later := before.other (.onAccept fd server.system.io.allocated)
        (by simp [ServerEvent.turns, Ne.symm same])
      simpa [same] using later

/-- A connection that is closed is taken out of all three tables. -/
theorem closed (inv : BooksInv server trace) {fd : Int} (positive : 0 < fd)
    (opened : server.sockets fd = true) :
    BooksInv (server.aeClientClose fd).1 (trace ++ (server.aeClientClose fd).2) := by
  have registered : server.system.io.HasFd fd := (inv.inStep fd).2.mpr opened
  obtain ⟨apart, has⟩ := inv.apart.deleted inv.running positive registered
  have stop := (ceIoDel_deletes server.system.io fd).stop
  -- The handler takes the fd out of the three tables, one after the other.
  simp only [ServerSystem.aeClientClose, ServerSystem.withIo]
  refine ⟨stop.trans inv.running, apart, ?_, ?_⟩
  · intro other
    have before := inv.inStep other
    by_cases same : other = fd
    · simp [has, same]
    · simp [has, same, before]
  · intro other
    have before := inv.closedOnce other
    by_cases same : other = fd
    · subst same
      rw [opened] at before
      simpa using before.closed
    · have later := before.other (.onClose fd) (by simp [ServerEvent.turns, Ne.symm same])
      simpa [same] using later

/-- A chunk that is read leaves the tables alone, or its connection is closed. -/
theorem read (inv : BooksInv server trace) {fd : Int} (positive : 0 < fd)
    (opened : server.sockets fd = true) (chunk : Option Bytes) :
    BooksInv (server.aeReadFromClient fd chunk).1
      (trace ++ (server.aeReadFromClient fd chunk).2) := by
  cases chunk with
  | none => exact inv.closed positive opened
  | some bytes =>
    have writes := ceIoEnqueue_writes server.system.io fd (chunkArg bytes)
    have written : BooksInv (server.withIo (ceIoEnqueue server.system.io fd (chunkArg bytes)).1)
        (trace ++ [.received fd bytes]) := by
      apply inv.same
      · exact writes.stop
      · exact writes.ioDict
      · simp [ServerEvent.turns]
    -- What comes next depends on whether the whole chunk was taken.
    cases result : (ceIoEnqueue server.system.io fd (chunkArg bytes)).2 with
    | true =>
      simp only [ServerSystem.aeReadFromClient, result, if_true]
      exact written
    | false =>
      -- The same handler goes on and closes the connection.
      have ended := written.closed positive opened
      simp only [ServerSystem.aeReadFromClient, result, Bool.false_eq_true, if_false]
      rwa [List.append_assoc] at ended

/-- A worker changes no table, unless its loop fails on a record whose fd is registered. -/
theorem work (inv : BooksInv server trace) {drains : Processor → FdEvent} {worker : Fin n}
    {send : Int → Bytes → Int} {system : IoSystem n} {events : List IoEvent}
    (none_ : ChangesAllOrNone server (.work worker send))
    (move : WorkerMove drains server.system worker send system events) :
    BooksInv { server with system := system } (trace ++ events.filterMap (·.serverEvent)) := by
  have silent : ∀ event ∈ events.filterMap (·.serverEvent), event.turns = none := by
    intro event inside
    obtain ⟨shown, -, is⟩ := List.mem_filterMap.mp inside
    -- A worker calls only the callbacks of a record, which open and close nothing.
    cases shown with
    | returned api result => cases is
    | callback record call =>
      cases is
      rfl
  cases move with
  | loop processor record ioFd place held =>
    have deletes := server.system.io.afterLoop_deletes record
      (processorLoop server.system.io send ioFd processor)
    -- The loop fails, if it does, on a record that the registry does not hold.
    refine inv.same deletes.stop (CeIo.afterLoop_ioDict ?_) silent
    intro failed
    rw [(CeIo.Leaves.processorLoop server.system.io send ioFd processor).1]
    simp only [ChangesAllOrNone, place] at none_
    exact none_ ioFd held failed
  | pop processor record ring place first =>
    cases drains processor <;> exact inv.same rfl rfl silent
  | take | leave | lock | unlock | freeEnqueueBuffer | freePushBuffer | freeRecord =>
    exact inv.same rfl rfl silent

/-- Every step that changes all tables or none keeps the books. -/
theorem step (inv : BooksInv server trace) {drains : Processor → FdEvent} {action : ServerAction n}
    {next : ServerSystem n} {events : List ServerEvent}
    (none_ : ChangesAllOrNone server action)
    (taken : (serverMachineWith n drains).step server action = some (next, events)) :
    BooksInv next (trace ++ events) := by
  cases action with
  | accept fd outcome =>
    simp only [serverMachineWith, serverMachine] at taken
    split at taken
    · rename_i ready
      obtain ⟨rfl, rfl⟩ := Prod.mk.inj (Option.some.inj taken)
      cases outcome with
      -- A socket that is closed again was in none of the tables.
      | acceptFails | keepAliveFails | fileEventFails => exact inv.same rfl rfl (by simp)
      | installed => exact inv.accepted ready.2.1 (none_ rfl)
    · cases taken
  | read fd chunk =>
    simp only [serverMachineWith, serverMachine] at taken
    split at taken
    · rename_i ready
      obtain ⟨rfl, rfl⟩ := Prod.mk.inj (Option.some.inj taken)
      exact inv.read none_ ready.1 chunk
    · cases taken
  | work worker send =>
    obtain ⟨⟨system, shown⟩, worked, made⟩ := Option.map_eq_some_iff.mp taken
    obtain ⟨rfl, rfl⟩ := Prod.mk.inj made
    exact inv.work none_ (IoSystem.work_move worked)

end BooksInv

/--
The books of the server are in order after every run whose steps change all three tables or none.

The processors may drain any rings, and the server may have any number of workers.
-/
theorem booksInStep_of_changesAllOrNone (n : Nat) (drains : Processor → FdEvent)
    (host : ByteOrder) (conf : CeConf) {actions : List (ServerAction n)} {last : ServerSystem n}
    {trace : List ServerEvent}
    (ran : (serverMachineWith n drains).exec
      (ServerSystem.started n host dictTypeHeapStrings conf) actions = some (last, trace))
    (all : (serverMachineWith n drains).Meets ChangesAllOrNone
      (ServerSystem.started n host dictTypeHeapStrings conf) actions) :
    BooksInStep last trace := by
  have inv := (serverMachineWith n drains).exec_invariant_of_meets BooksInv
    (BooksInv.started n host conf) (fun _ _ _ _ _ reached none_ taken => reached.step none_ taken)
    ran all
  exact ⟨fun _ => inv.inStep, inv.closedOnce⟩

instance {n : Nat} (server : ServerSystem n) :
    (action : ServerAction n) → Decidable (ChangesAllOrNone server action)
  | .accept _ _ => inferInstanceAs (Decidable (_ → _))
  | .read fd _ => inferInstanceAs (Decidable (0 < fd))
  | .work worker send =>
    match place : server.system.pcs worker with
    | .locked processor record =>
      decidable_of_iff (∀ ioFd ∈ server.system.io.records record,
        (processorLoop server.system.io send ioFd processor).exit = some .fail →
          dictFind server.system.io.ioDict ioFd.fd = none) (by simp only [ChangesAllOrNone, place])
    | .idle | .draining _ | .popped _ _ | .looped _ _ | .deleting _ _ =>
      isTrue (by simp only [ChangesAllOrNone, place])

/-- A connection that is accepted, read from and closed, and another one that stays open. -/
theorem booksInStep_two_connections : ∃ last trace,
    (serverMachineWith 1 deliveredDrains).exec
      (ServerSystem.started 1 .little dictTypeHeapStrings smallConf)
      ([.accept 7 .installed, .accept 8 .installed, .read 7 (some [1, 0, 5])] ++
        List.replicate 5 (.work 0 sendAll) ++ [.read 7 none]) = some (last, trace) ∧
    BooksInStep last trace := by
  obtain ⟨⟨last, trace⟩, ran⟩ := Option.isSome_iff_exists.mp (by rfl :
    ((serverMachineWith 1 deliveredDrains).exec
      (ServerSystem.started 1 .little dictTypeHeapStrings smallConf)
      ([.accept 7 .installed, .accept 8 .installed, .read 7 (some [1, 0, 5])] ++
        List.replicate 5 (.work 0 sendAll) ++ [.read 7 none])).isSome)
  exact ⟨last, trace, ran,
    booksInStep_of_changesAllOrNone 1 deliveredDrains .little smallConf ran (by decide)⟩

/--
A second multiple of 256 is accepted, and the registry refuses it.

Its socket is closed, and its read handler stays in the event loop.
-/
theorem not_booksInStep_second_multiple : ∃ last trace,
    (serverMachineWith 1 sourceDrains).exec
      (ServerSystem.started 1 .little dictTypeHeapStrings smallConf)
      [.accept 256 .installed, .accept 512 .installed] = some (last, trace) ∧
    last.system.Done ∧ last.handlers 512 = true ∧ last.sockets 512 = false ∧
    ¬ BooksInStep last trace := by
  refine ⟨_, _, rfl, ⟨rfl, by decide⟩, rfl, rfl, ?_⟩
  -- All jobs are done, and the handler is left without a socket.
  intro books
  have agree := books.inStep ⟨rfl, by decide⟩ 512
  exact absurd ((agree.1.trans agree.2).mp rfl) (by decide)

/-- The number 0 is taken in, and `ce_io_del` refuses it when its connection is closed. -/
theorem not_booksInStep_zero : ∃ last trace,
    (serverMachineWith 1 sourceDrains).exec
      (ServerSystem.started 1 .little dictTypeHeapStrings smallConf)
      [.accept 0 .installed, .read 0 none] = some (last, trace) ∧
    last.system.Done ∧ last.system.io.HasFd 0 ∧ last.sockets 0 = false ∧
    ¬ BooksInStep last trace := by
  refine ⟨_, _, rfl, ⟨rfl, by decide⟩, ⟨_, List.mem_singleton_self _, rfl⟩, rfl, ?_⟩
  -- The socket is closed, and the registry goes on holding its number.
  intro books
  have agree := books.inStep ⟨rfl, by decide⟩ 0
  exact absurd (agree.2.mp ⟨_, List.mem_singleton_self _, rfl⟩) (by decide)

end Cevent
