import Cevent.Io.Calls
import Cevent.Library.History
import Cevent.Library.Machine

/-! Which addresses the calls of a running io work on, hand over and free. -/

namespace Cevent

open Interleaving

/-- The blocks that `ce_io_add` allocates: a `ce_io_fd_t`, and two rings with their bytes. -/
inductive IoFdBlock where
  | ioFd
  | enqueueRb
  | enqueueBytes
  | pushRb
  | pushBytes
  deriving DecidableEq, Repr

/-- An address that the code gets hold of. -/
inductive Address where
  /-- Where a call keeps a parameter, in its frame on a stack. -/
  | frame (place : Nat)
  /-- One of the blocks that were allocated for a record. -/
  | block (record : RecordId) (part : IoFdBlock)
  deriving DecidableEq, Repr

/-- An `int` parameter of a call, with the place in a frame where the call keeps it. -/
structure IntAt where
  value : Int
  place : Nat
  deriving DecidableEq, Repr

/-- The address of the parameter. -/
def IntAt.address (param : IntAt) : Address := .frame param.place

/-- A type for keys that are addresses, which looks at what is stored there. -/
def DictType.atAddress (type : DictType Int) : DictType IntAt where
  hashFunction key := type.hashFunction key.value
  keyCompare key other := type.keyCompare key.value other.value

/-- What `struct ce_io` and its pool hold of pointers. -/
structure PointerIo where
  /-- Every entry has two pointers: its key, and its value, which is the `ioFd` block of a record. -/
  ioDict : Dict IntAt RecordId
  allocated : Nat
  /-- The `user_data` of the delete jobs that wait. -/
  deleteJobs : List Address

/-- What the calls do with addresses. -/
inductive PointerEvent where
  /-- A `ce_io_add` has allocated a record and returned true. -/
  | added (fd : Int) (record : RecordId)
  /-- A `ce_io_enqueue` or `ce_io_push` on an fd has worked on a record there and returned true. -/
  | worked (fd : Int) (address : Address)
  /-- A `ce_io_del` has returned true. -/
  | deleted (fd : Int)
  /-- `_ce_io_delete_fd_processor` was called. -/
  | handed (address : Address)
  | freed (address : Address)
  deriving DecidableEq, Repr

namespace PointerIo

/-- `ce_io_new`. -/
def new (type : DictType Int) : PointerIo where
  ioDict := dictCreate type.atAddress
  allocated := 0
  deleteJobs := []

/-- `ce_io_add`, whose key is the address of its own parameter. -/
def ceIoAdd (io : PointerIo) (fd : IntAt) : PointerIo × List PointerEvent :=
  match dictFind io.ioDict fd with
  | some _ => (io, [])
  | none =>
    let record := io.allocated
    -- The key is `&fd`, and the record goes in as the value.
    let (ioDict, added) := dictAdd io.ioDict fd record
    ({ io with ioDict := ioDict, allocated := record + 1 },
      if added then [.added fd.value record] else [])

/--
What `ce_io_enqueue` and `ce_io_push` have in common: they take the entry's key for the record.

Whether what is stored there lets them succeed is left open.
-/
def followKey (io : PointerIo) (fd : IntAt) (arg : PacketArg) (succeeds : Bool) :
    PointerIo × List PointerEvent :=
  if arg.data = none ∨ fd.value ≤ 0 ∨ arg.size = 0 then (io, [])
  else
    match dictFind io.ioDict fd with
    | none => (io, [])
    -- `(ce_io_fd_t *)entry->key` points to the parameter of a call that has returned.
    | some entry => (io, if succeeds then [.worked fd.value entry.key.address] else [])

/-- `ce_io_enqueue`. -/
def ceIoEnqueue (io : PointerIo) (fd : IntAt) (arg : PacketArg) (succeeds : Bool) :
    PointerIo × List PointerEvent :=
  io.followKey fd arg succeeds

/-- `ce_io_push`. -/
def ceIoPush (io : PointerIo) (_pushType : CePushType) (fd : IntAt) (arg : PacketArg)
    (succeeds : Bool) : PointerIo × List PointerEvent :=
  io.followKey fd arg succeeds

/-- `ce_io_del`, in which `dictDelete` calls the key destructor, `_dictStringDestructor`. -/
def ceIoDel (io : PointerIo) (fd : IntAt) : PointerIo × List PointerEvent :=
  if fd.value ≤ 0 then (io, [])
  else
    match dictFind io.ioDict fd with
    | none => (io, [])
    | some entry =>
      -- The same address is freed by the key destructor and then given to the pool.
      ({ io with
          ioDict := (dictDelete io.ioDict fd).1
          deleteJobs := io.deleteJobs ++ [entry.key.address] },
        [.freed entry.key.address, .deleted fd.value])

end PointerIo

/--
The addresses that `_ce_io_delete_fd_processor` frees.

Where it is handed an address that is not a record's, `strays` are those that it finds in the place of
the rings.
-/
def ceIoDeleteFdProcessor (address : Address) (strays : List Address) : List Address :=
  match address with
  | .block record .ioFd =>
    -- Each ring is freed with its bytes, and the record last.
    [.block record .enqueueBytes, .block record .enqueueRb, .block record .pushBytes,
      .block record .pushRb, .block record .ioFd]
  | other => strays ++ [other]

/-- A call on a running io, or a worker that runs one of its delete jobs. -/
inductive PointerAction where
  | add (fd : IntAt)
  | enqueue (fd : IntAt) (arg : PacketArg) (succeeds : Bool)
  | push (pushType : CePushType) (fd : IntAt) (arg : PacketArg) (succeeds : Bool)
  | del (fd : IntAt)
  | deleteJob (index : Nat) (strays : List Address)

/-- A running io and its delete jobs. -/
def pointerMachine : Machine PointerIo PointerAction PointerEvent where
  step io
    | .add fd => some (io.ceIoAdd fd)
    | .enqueue fd arg succeeds => some (io.ceIoEnqueue fd arg succeeds)
    | .push pushType fd arg succeeds => some (io.ceIoPush pushType fd arg succeeds)
    | .del fd => some (io.ceIoDel fd)
    | .deleteJob index strays =>
      match io.deleteJobs[index]? with
      | none => none
      | some address =>
        some ({ io with deleteJobs := io.deleteJobs.eraseIdx index },
          .handed address :: (ceIoDeleteFdProcessor address strays).map .freed)

/-- The record that the latest successful `ce_io_add` of an fd has allocated. -/
def latestAdded (fd : Int) (trace : List PointerEvent) : Option RecordId :=
  (trace.filterMap fun
    | .added fd' record => if fd' = fd then some record else none
    | _ => none).getLast?

/-- The records that were deleted, given the latest record of each fd. -/
def deletedSince (latest : Int → Option RecordId) : List PointerEvent → List RecordId
  | [] => []
  -- An fd that is used again stands for its newer record from here on.
  | .added fd record :: rest => deletedSince (Function.update latest fd (some record)) rest
  -- The deletion is about the record that the fd stands for at that point.
  | .deleted fd :: rest => (latest fd).toList ++ deletedSince latest rest
  | .worked _ _ :: rest | .handed _ :: rest | .freed _ :: rest => deletedSince latest rest

/-- The records that the successful calls of `ce_io_del` were about, in order. -/
def deletedRecords (trace : List PointerEvent) : List RecordId := deletedSince (fun _ => none) trace

/--
An address is the one that it should be.

A call works on the latest record of its fd, and only what belongs to a deleted record is handed over
and freed.
-/
def OwnsAddress (before : List PointerEvent) : PointerEvent → Prop
  | .added _ _ | .deleted _ => True
  | .worked fd address => ∃ record, latestAdded fd before = some record ∧ address = .block record .ioFd
  -- Only the record itself is handed over, and only after its deletion.
  | .handed address => ∃ record ∈ deletedRecords before, address = .block record .ioFd
  | .freed address => ∃ record ∈ deletedRecords before, ∃ part, address = .block record part

/-- Every record is owned once over a run. -/
structure OwnedOnce (trace : List PointerEvent) : Prop where
  each : EachFits OwnsAddress trace
  handedOnce : ∀ record,
    trace.count (.handed (.block record .ioFd)) = (deletedRecords trace).count record
  freedOnce : ∀ record part,
    trace.count (.freed (.block record part)) = (deletedRecords trace).count record

/--
A step is no call that goes on with the key of an entry.

A `ce_io_del` does not find its fd. A `ce_io_enqueue` or `ce_io_push` with legal arguments does not find
it either, or what is stored where the key points does not let it succeed.
-/
def FollowsNoKey (io : PointerIo) : PointerAction → Prop
  -- A delete job is there only after a `ce_io_del` has found its fd.
  | .add _ | .deleteJob _ _ => True
  | .enqueue fd arg succeeds | .push _ fd arg succeeds =>
    ¬ (arg.data = none ∨ fd.value ≤ 0 ∨ arg.size = 0) → (dictFind io.ioDict fd).isSome →
      succeeds = false
  | .del fd => ¬ fd.value ≤ 0 → dictFind io.ioDict fd = none

/-- Nothing but records was added, and no delete job waits. -/
def OnlyAdded (io : PointerIo) (trace : List PointerEvent) : Prop :=
  io.deleteJobs = [] ∧ ∀ event ∈ trace, ∃ fd record, event = .added fd record

/-- The address of a parameter is never one that a record owns. -/
theorem not_ownsAddress_frame (before : List PointerEvent) (fd : Int) (param : IntAt) :
    ¬ OwnsAddress before (.worked fd param.address) ∧ ¬ OwnsAddress before (.freed param.address) := by
  constructor
  · intro owns
    obtain ⟨record, -, same⟩ := owns
    cases same
  · intro owns
    obtain ⟨record, -, part, same⟩ := owns
    cases same

/-- What a step shows: at most an added record, or first an address that no record owns. -/
inductive PointerShows (io next : PointerIo) (action : PointerAction) :
    List PointerEvent → Prop where
  | added (events : List PointerEvent) (follows : FollowsNoKey io action)
      (jobs : next.deleteJobs = io.deleteJobs)
      (only : ∀ event ∈ events, ∃ fd record, event = .added fd record) :
      PointerShows io next action events
  | stray (event : PointerEvent) (rest : List PointerEvent) (follows : ¬ FollowsNoKey io action)
      (unowned : ∀ before, ¬ OwnsAddress before event) :
      PointerShows io next action (event :: rest)
  | job (events : List PointerEvent) (waits : io.deleteJobs ≠ []) :
      PointerShows io next action events

/-- A call that goes on with a key and succeeds works where no record is. -/
theorem followKey_shows (io : PointerIo) (fd : IntAt) (arg : PacketArg) (succeeds : Bool)
    {action : PointerAction}
    (is : FollowsNoKey io action ↔ (¬ (arg.data = none ∨ fd.value ≤ 0 ∨ arg.size = 0) →
      (dictFind io.ioDict fd).isSome → succeeds = false)) :
    PointerShows io (io.followKey fd arg succeeds).1 action (io.followKey fd arg succeeds).2 := by
  unfold PointerIo.followKey
  by_cases illegal : arg.data = none ∨ fd.value ≤ 0 ∨ arg.size = 0
  · rw [if_pos illegal]
    exact .added [] (is.mpr fun legal => absurd illegal legal) rfl (by simp)
  · rw [if_neg illegal]
    cases found : dictFind io.ioDict fd with
    -- The fd is not registered, and the call fails.
    | none => exact .added [] (is.mpr fun _ some_ => by simp [found] at some_) rfl (by simp)
    | some entry =>
      cases succeeds with
      -- What is stored at the address makes the call fail.
      | false => exact .added [] (is.mpr fun _ _ => rfl) rfl (by simp)
      | true =>
        refine .stray _ [] ?_ fun before => (not_ownsAddress_frame before fd.value entry.key).1
        intro follows
        exact absurd (is.mp follows illegal (by simp [found])) (by simp)

/-- Every step shows one of these. -/
theorem pointerMachine_shows {io next : PointerIo} {action : PointerAction}
    {events : List PointerEvent} (taken : pointerMachine.step io action = some (next, events)) :
    PointerShows io next action events := by
  cases action with
  | add fd =>
    obtain ⟨rfl, rfl⟩ := Prod.mk.inj (Option.some.inj taken)
    show PointerShows io (io.ceIoAdd fd).1 _ (io.ceIoAdd fd).2
    unfold PointerIo.ceIoAdd
    split
    · exact .added [] trivial rfl (by simp)
    · refine .added _ trivial rfl ?_
      intro event inside
      dsimp only at inside
      split at inside
      · exact ⟨fd.value, io.allocated, List.mem_singleton.mp inside⟩
      · cases inside
  | enqueue fd arg succeeds | push _ fd arg succeeds =>
    obtain ⟨rfl, rfl⟩ := Prod.mk.inj (Option.some.inj taken)
    exact followKey_shows io fd arg succeeds Iff.rfl
  | del fd =>
    obtain ⟨rfl, rfl⟩ := Prod.mk.inj (Option.some.inj taken)
    show PointerShows io (io.ceIoDel fd).1 _ (io.ceIoDel fd).2
    unfold PointerIo.ceIoDel
    by_cases illegal : fd.value ≤ 0
    · rw [if_pos illegal]
      exact .added [] (fun legal => absurd illegal legal) rfl (by simp)
    · rw [if_neg illegal]
      cases found : dictFind io.ioDict fd with
      | none => exact .added [] (fun _ => found) rfl (by simp)
      | some entry =>
        -- The key destructor frees the parameter of a call that has long returned.
        refine .stray _ _ ?_ fun before => (not_ownsAddress_frame before fd.value entry.key).2
        intro follows
        exact absurd (follows illegal) (by simp [found])
  | deleteJob index strays =>
    -- A job can be run only if one waits.
    refine .job events ?_
    intro none_
    simp [pointerMachine, none_] at taken

/-- While every address was owned, nothing but records was added. -/
theorem onlyAdded_step {io next : PointerIo} {action : PointerAction}
    {before events : List PointerEvent}
    (inv : EachFits OwnsAddress before → OnlyAdded io before)
    (taken : pointerMachine.step io action = some (next, events)) :
    EachFits OwnsAddress (before ++ events) → OnlyAdded next (before ++ events) := by
  intro each
  obtain ⟨none_, early⟩ := inv each.before
  -- An address that no record owns would have broken the trace, so there was none.
  cases pointerMachine_shows taken with
  | added events follows jobs only =>
    refine ⟨jobs.trans none_, ?_⟩
    intro event inside
    rcases List.mem_append.mp inside with old | new
    · exact early event old
    · exact only event new
  | stray event rest follows unowned => exact absurd (each before event rest rfl) (unowned before)
  | job events waits => exact absurd none_ waits

/-- A step leaves every address owned just when it goes on with no key. -/
theorem each_step_iff {io next : PointerIo} {action : PointerAction}
    {before events : List PointerEvent}
    (inv : EachFits OwnsAddress before → OnlyAdded io before)
    (taken : pointerMachine.step io action = some (next, events)) :
    EachFits OwnsAddress (before ++ events) ↔
      EachFits OwnsAddress before ∧ FollowsNoKey io action := by
  cases pointerMachine_shows taken with
  | added events follows jobs only =>
    rw [and_iff_left follows]
    refine ⟨EachFits.before, ?_⟩
    intro each
    refine each.append ?_
    intro event inside before
    obtain ⟨fd, record, rfl⟩ := only event inside
    trivial
  | stray event rest follows unowned =>
    -- The first event of the step is wrong whatever came before.
    refine iff_of_false ?_ fun both => follows both.2
    intro each
    exact unowned before (each before event rest rfl)
  | job events waits =>
    -- A job waits, so something wrong has happened before.
    have broken : ¬ EachFits OwnsAddress before := fun each => waits (inv each).1
    exact iff_of_false (fun each => broken each.before) fun both => broken both.1

/-- Where nothing but records was added, nothing was deleted, handed over or freed. -/
theorem ownedOnce_of_onlyAdded {trace : List PointerEvent} (each : EachFits OwnsAddress trace)
    (only : ∀ event ∈ trace, ∃ fd record, event = .added fd record) : OwnedOnce trace := by
  -- Without a deletion, no record counts as deleted.
  have none_ : deletedRecords trace = [] := by
    unfold deletedRecords
    generalize (fun _ : Int => (none : Option RecordId)) = latest
    clear each
    induction trace generalizing latest with
    | nil => rfl
    | cons event rest ih =>
      obtain ⟨here, later⟩ := List.forall_mem_cons.mp only
      obtain ⟨fd, record, rfl⟩ := here
      exact ih later _
  -- No other event stands in the trace at all.
  have never : ∀ event, (∀ fd record, event ≠ .added fd record) → trace.count event = 0 := by
    intro event other
    refine List.count_eq_zero.mpr fun inside => ?_
    obtain ⟨fd, record, same⟩ := only event inside
    exact other fd record same
  refine ⟨each, ?_, ?_⟩
  · intro record
    rw [none_, never _ (by simp)]
    rfl
  · intro record part
    rw [none_, never _ (by simp)]
    rfl

/--
Over a run, every record is owned once just when no call goes on with the key of an entry.

The calls may be made on any fds, also on ones that are used again, and the delete jobs may be run in
any order and at any time.
-/
theorem ownedOnce_iff (type : DictType Int) {actions : List PointerAction} {last : PointerIo}
    {trace : List PointerEvent}
    (ran : pointerMachine.exec (PointerIo.new type) actions = some (last, trace)) :
    OwnedOnce trace ↔ pointerMachine.Meets FollowsNoKey (PointerIo.new type) actions := by
  let inv := fun (io : PointerIo) trace => EachFits OwnsAddress trace → OnlyAdded io trace
  have fresh : inv (PointerIo.new type) [] := fun _ => ⟨rfl, by simp⟩
  have keep : ∀ io before action next events, inv io before →
      pointerMachine.step io action = some (next, events) → inv next (before ++ events) :=
    fun _ _ _ _ _ reached taken => onlyAdded_step reached taken
  have each : EachFits OwnsAddress trace ↔
      pointerMachine.Meets FollowsNoKey (PointerIo.new type) actions := by
    refine pointerMachine.exec_iff_meets inv (fun _ trace => EachFits OwnsAddress trace) fresh
      eachFits_nil keep ?_ ran
    intro io before action next events reached taken
    exact each_step_iff reached taken
  rw [← each]
  constructor
  · intro owned
    exact owned.each
  · -- A trace without a wrong address has additions only, and these own their records.
    intro fits
    exact ownedOnce_of_onlyAdded fits (pointerMachine.exec_invariant inv fresh keep ran fits).2

/-- Two connections are added, and calls on an fd that is not registered are refused. -/
def addsAndRefusals : List PointerAction :=
  [.enqueue ⟨7, 0⟩ oneByteArg true, .add ⟨7, 1⟩, .add ⟨8, 2⟩, .push .pushFd ⟨9, 3⟩ oneByteArg true,
    .del ⟨9, 4⟩, .enqueue ⟨7, 5⟩ oneByteArg false]

/-- Both own their records once. -/
theorem ownedOnce_iff_two_connections : ∃ last trace,
    pointerMachine.exec (PointerIo.new dictTypeInt) addsAndRefusals = some (last, trace) ∧
    trace = [.added 7 0, .added 8 1] ∧
    (OwnedOnce trace ↔
      pointerMachine.Meets FollowsNoKey (PointerIo.new dictTypeInt) addsAndRefusals) :=
  ⟨_, _, rfl, rfl, ownedOnce_iff dictTypeInt rfl⟩

/--
A connection is deleted, and its delete job run.

A parameter of `ce_io_add` was freed and then handed over and freed again, and the record never was.
-/
theorem not_ownedOnce_deleted : ∃ last trace,
    pointerMachine.exec (PointerIo.new dictTypeInt) [.add ⟨7, 0⟩, .del ⟨7, 1⟩, .deleteJob 0 []] =
      some (last, trace) ∧
    last.deleteJobs = [] ∧
    trace = [.added 7 0, .freed (.frame 0), .deleted 7, .handed (.frame 0), .freed (.frame 0)] ∧
    ¬ OwnedOnce trace := by
  refine ⟨_, _, rfl, rfl, rfl, ?_⟩
  -- Record 0 was deleted, and it is not once among the addresses handed over.
  intro owned
  exact absurd (owned.handedOnce 0) (by decide)

/-- An entry as it is seen by who looks at the value of its key, and follows its own value. -/
def DictEntry.byValue (entry : DictEntry IntAt RecordId) : DictEntry Int RecordId where
  key := entry.key.value
  val := entry.val

/-- The io of records is what the pointers say when an entry's value is followed, not its key. -/
structure PointerIo.ReadByValue (pointers : PointerIo) (io : CeIo) : Prop where
  type : pointers.ioDict.type = io.ioDict.type.atAddress
  entries : io.ioDict.entries = pointers.ioDict.entries.map DictEntry.byValue
  allocated : io.allocated = pointers.allocated

section ReadByValue

variable {pointers : PointerIo} {io : CeIo}

/-- The two dictionaries compare keys alike. -/
theorem PointerIo.ReadByValue.matchesKey (read : pointers.ReadByValue io) (fd : IntAt) :
    io.ioDict.matchesKey fd.value ∘ DictEntry.byValue = pointers.ioDict.matchesKey fd := by
  funext entry
  simp only [Function.comp_apply, Dict.matchesKey, read.type]
  rfl

/-- They find the same entry. -/
theorem PointerIo.ReadByValue.find (read : pointers.ReadByValue io) (fd : IntAt) :
    dictFind io.ioDict fd.value = (dictFind pointers.ioDict fd).map DictEntry.byValue := by
  rw [dictFind, read.entries, List.find?_map, read.matchesKey]
  rfl

/-- `ce_io_add` takes the same fds in, and allocates the same records for them. -/
theorem PointerIo.ReadByValue.add (read : pointers.ReadByValue io) (running : io.stop = false) (fd : IntAt) :
    (pointers.ceIoAdd fd).1.ReadByValue (Cevent.ceIoAdd io fd.value).1 := by
  have same := read.find fd
  unfold PointerIo.ceIoAdd Cevent.ceIoAdd
  rw [if_neg (by simp [running])]
  cases found : dictFind pointers.ioDict fd with
  | some entry =>
    rw [found] at same
    simp only [same, Option.map_some]
    exact read
  | none =>
    rw [found] at same
    -- Both append an entry with the same number and the same record.
    simp only [same, found, dictAdd, Option.map_none]
    refine ⟨read.type, ?_, congrArg (· + 1) read.allocated⟩
    rw [List.map_append, ← read.entries, read.allocated]
    rfl

/-- `ce_io_del` takes the same entries out, and differs in the address that it hands over. -/
theorem PointerIo.ReadByValue.del (read : pointers.ReadByValue io) (running : io.stop = false) (fd : IntAt) :
    (pointers.ceIoDel fd).1.ReadByValue (Cevent.ceIoDel io fd.value).1 := by
  have same := read.find fd
  unfold PointerIo.ceIoDel Cevent.ceIoDel
  by_cases negative : fd.value ≤ 0
  · rw [if_pos negative, if_pos negative]
    exact read
  · rw [if_neg negative, if_neg negative, if_neg (by simp [running])]
    cases found : dictFind pointers.ioDict fd with
    | none =>
      rw [found] at same
      simp only [same, Option.map_none]
      exact read
    | some entry =>
      rw [found] at same
      simp only [same, found, dictDelete, Option.map_some]
      refine ⟨read.type, ?_, read.allocated⟩
      -- The entry that is taken out stands at the same place in both.
      show io.ioDict.entries.eraseP (io.ioDict.matchesKey fd.value) = _
      rw [read.entries, List.eraseP_map, read.matchesKey]

end ReadByValue

end Cevent
