import Cevent.Hash.IteratorRuns
import Cevent.Io.Teardown

/-! The hash table under an io: the calls to it, and the loop of `ce_io_destory` over it. -/

namespace Cevent

open Interleaving

/-- The calls that a call to an io makes to the hash table of its registry. -/
def CeIo.tableCalls (io : CeIo) : IoApi → List (Hash.Call Int RecordId)
  | .add fd =>
    if io.stop then []
    else .find fd :: if (dictFind io.ioDict fd).isSome then [] else [.add fd io.allocated]
  | .enqueue fd arg | .push _ fd arg =>
    -- What is refused before the lookup does not come to the table.
    if arg.data = none ∨ fd ≤ 0 ∨ arg.size = 0 ∨ io.stop then [] else [.find fd]
  | .del fd =>
    if fd ≤ 0 ∨ io.stop then []
    else .find fd :: if (dictFind io.ioDict fd).isSome then [.delete fd] else []

/-- A lookup in a map leaves it as it is. -/
theorem mapMachine_find (m : Dict Int RecordId) (fd : Int) (calls : List (Hash.Call Int RecordId)) :
    (Hash.mapMachine Int RecordId).exec m (.find fd :: calls) =
      ((Hash.mapMachine Int RecordId).exec m calls).map fun done =>
        (done.1, .entry (dictFind m fd) :: done.2) := by
  rw [(Hash.mapMachine Int RecordId).exec_cons rfl]
  rfl

/-- Made to a map, these calls leave the registry that the call to the io leaves. -/
theorem CeIo.exec_tableCalls (io : CeIo) (api : IoApi) :
    ∃ answers, (Hash.mapMachine Int RecordId).exec io.ioDict (io.tableCalls api) =
      some ((ioCall io api).1.ioDict, answers) := by
  -- The lookup of a call leaves the map alone, and its update is that of the registry.
  cases api with
  | add fd =>
    simp only [tableCalls, ioCall, ceIoAdd]
    split_ifs with stopped known
    · exact ⟨[], rfl⟩
    · obtain ⟨entry, found⟩ := Option.isSome_iff_exists.mp known
      rw [mapMachine_find, found]
      exact ⟨_, rfl⟩
    · rw [Option.not_isSome_iff_eq_none] at known
      rw [mapMachine_find, known]
      exact ⟨_, rfl⟩
  | enqueue fd arg =>
    simp only [tableCalls, ioCall, (ceIoEnqueue_writes io fd arg).ioDict]
    split_ifs
    · exact ⟨[], rfl⟩
    · exact ⟨_, mapMachine_find ..⟩
  | push pushType fd arg =>
    simp only [tableCalls, ioCall, (ceIoPush_writes io pushType fd arg).ioDict]
    split_ifs
    · exact ⟨[], rfl⟩
    · exact ⟨_, mapMachine_find ..⟩
  | del fd =>
    -- `ce_io_del` looks at the fd, at the flag and at what it has found, in this order.
    simp only [tableCalls, ioCall, ceIoDel]
    by_cases negative : fd ≤ 0
    · simp only [negative, true_or, if_true]
      exact ⟨[], rfl⟩
    · cases stopped : io.stop with
      | true =>
        simp only [negative, or_true, if_true, if_false]
        exact ⟨[], rfl⟩
      | false =>
        cases found : dictFind io.ioDict fd with
        | none =>
          simp only [negative, Bool.false_eq_true, or_self, if_false, Option.isSome_none]
          exact ⟨_, mapMachine_find ..⟩
        | some entry =>
          simp only [negative, Bool.false_eq_true, or_self, if_false, Option.isSome_some, if_true]
          exact ⟨_, mapMachine_find ..⟩

section Represented

variable {io : CeIo} {store : Hash.Store Int RecordId}

/-- They fit, when an fd is added to a registry that is not too large. -/
theorem CeIo.tableCalls_fit (rep : Hash.Represents store io.ioDict) (api : IoApi)
    (small : ∀ fd, api = .add fd → io.ioDict.entries.length ≤ 2 ^ 30) :
    (Hash.tableMachine Int RecordId).Meets (fun store call => call.Fits store) store
      (io.tableCalls api) := by
  cases api with
  | add fd =>
    simp only [tableCalls]
    split_ifs
    · trivial
    · exact ⟨trivial, fun _ _ _ => trivial⟩
    · refine ⟨trivial, fun looked answers taken => ⟨?_, fun _ _ _ => trivial⟩⟩
      -- The lookup may move entries between the tables, and leaves as many as there were.
      have rep' : Hash.Represents looked io.ioDict :=
        rep.of_call (show Hash.Call.Fits store (.find fd) from trivial) taken
      show Hash.dictSize looked.dict ≤ 2 ^ 30
      rw [rep'.sound.dictSize_eq, rep'.entries.length_eq]
      exact small fd rfl
  | enqueue fd arg | push pushType fd arg =>
    simp only [tableCalls]
    split_ifs
    · trivial
    · exact ⟨trivial, fun _ _ _ => trivial⟩
  | del fd =>
    simp only [tableCalls]
    split_ifs
    · trivial
    · exact ⟨trivial, fun _ _ _ => ⟨trivial, fun _ _ _ => trivial⟩⟩
    · exact ⟨trivial, fun _ _ _ => trivial⟩

end Represented

/-- The call to the io that a step makes, with the io that it is made to. -/
def TeardownSystem.made {n : Nat} (system : TeardownSystem n) :
    TeardownAction n → Option (CeIo × IoApi)
  | .io (.call api) => some (system.sys.io, api)
  | .io (.work worker send) =>
    -- A processor calls `ce_io_del` when its loop has failed.
    match system.sys.pcs worker with
    | .locked processor record => (system.sys.io.records record).bind fun ioFd =>
      let done := processorLoop system.sys.io send ioFd processor
      if done.exit = some .fail then
        some (system.sys.io.setRecord record done.state, .del done.state.fd)
      else none
    | _ => none
  | .destroy =>
    match system.destroyer with
    | .visiting (record :: _) => (system.sys.io.records record).map fun ioFd =>
      (system.sys.io, .del ioFd.fd)
    | _ => none

/-- The calls to the hash table in a step. -/
def TeardownSystem.tableCalls {n : Nat} (system : TeardownSystem n) (action : TeardownAction n) :
    List (Hash.Call Int RecordId) :=
  match system.made action with
  | none => []
  | some (io, api) => io.tableCalls api

/-- A step leaves the registry as it is, or changes it by the call that it makes. -/
inductive ChangesRegistry {n : Nat} (system : TeardownSystem n) (action : TeardownAction n)
    (next : TeardownSystem n) : Prop where
  | leaves (none_ : system.made action = none)
      (same : next.sys.io.ioDict = system.sys.io.ioDict)
  | calls (io : CeIo) (api : IoApi) (made : system.made action = some (io, api))
      (ioDict : io.ioDict = system.sys.io.ioDict) (stop : io.stop = system.sys.io.stop)
      (after : next.sys.io.ioDict = (ioCall io api).1.ioDict)
      -- Only a caller adds an fd.
      (adds : ∀ fd, api = .add fd → action = .io (.call (.add fd)))

/-- The step of a caller or a worker does so. -/
theorem changesRegistry_of_io {n : Nat} {drains : Processor → FdEvent} {system : TeardownSystem n}
    {action : IoAction n} {sys : IoSystem n} {events : List IoEvent}
    (taken : (ioMachine n drains).step system.sys action = some (sys, events)) :
    ChangesRegistry system (.io action) { system with sys := sys } := by
  cases action with
  | call api =>
    obtain ⟨rfl, -⟩ := ioMachine_call taken
    refine .calls system.sys.io api rfl rfl rfl rfl ?_
    intro fd is
    rw [is]
  | work worker send =>
    -- A worker calls the io only when the loop of a processor has failed.
    cases IoSystem.work_move taken with
    | pop processor record ring place first =>
      refine .leaves (by simp [TeardownSystem.made, place]) ?_
      cases drains processor <;> rfl
    | loop processor record ioFd place held =>
      by_cases failed : (processorLoop system.sys.io send ioFd processor).exit = some .fail
      · let done := processorLoop system.sys.io send ioFd processor
        refine .calls (system.sys.io.setRecord record done.state) (.del done.state.fd) ?_ rfl rfl ?_
          (by simp)
        · simp [TeardownSystem.made, place, held, failed, done]
        · simp only [IoSystem.goto_io, CeIo.afterLoop, failed, if_true]
          rfl
      · refine .leaves (by simp [TeardownSystem.made, place, held, failed]) ?_
        simp only [IoSystem.goto_io, CeIo.afterLoop, failed, if_false]
        rfl
    | take item others place | leave processor place | lock processor record place
    | unlock processor record place | freeEnqueueBuffer record place
    | freePushBuffer record place | freeRecord record place =>
      exact .leaves (by simp [TeardownSystem.made, place]) rfl

/-- And so does every other step. -/
theorem changesRegistry_of_step {n : Nat} {drains : Processor → FdEvent}
    {system next : TeardownSystem n} {action : TeardownAction n} {events : List RecordId}
    (taken : (teardownMachine n drains).step system action = some (next, events)) :
    ChangesRegistry system action next := by
  cases teardownMachine_move taken with
  | io action sys shown alive stepped => exact changesRegistry_of_io stepped
  | destroy _ stepped =>
    cases TeardownSystem.destroy_move stepped with
    | visit record others ioFd at_ held =>
      exact .calls system.sys.io (.del ioFd.fd) (by simp [TeardownSystem.made, at_, held]) rfl rfl rfl
        (by simp)
    | stop at_ | visited at_ | sleep at_ | seenEmpty at_ | abort at_ | join at_ =>
      exact .leaves (by simp [TeardownSystem.made, at_]) rfl

/-- An fd is added while the registry has at most `2 ^ 30` entries. -/
def AddsWithin {n : Nat} (system : TeardownSystem n) : TeardownAction n → Prop
  | .io (.call (.add _)) => system.sys.io.ioDict.entries.length ≤ 2 ^ 30
  | _ => True

/-- Whether the registry is small enough is found out by counting its entries. -/
instance AddsWithin.decidable {n : Nat} (system : TeardownSystem n) :
    (action : TeardownAction n) → Decidable (AddsWithin system action)
  | .io (.call (.add _)) => inferInstanceAs (Decidable (system.sys.io.ioDict.entries.length ≤ 2 ^ 30))
  | .io (.call (.enqueue ..)) | .io (.call (.push ..)) | .io (.call (.del _)) | .io (.work ..)
  | .destroy => isTrue trivial

/-- The calls to a new hash table fit, and lead to one that has the entries of a registry. -/
structure Tabled (type : DictType Int) (m : Dict Int RecordId)
    (calls : List (Hash.Call Int RecordId)) : Prop where
  fits : (Hash.tableMachine Int RecordId).Meets (fun store call => call.Fits store)
    (Hash.Store.new type) calls
  table : ∃ store answers,
    (Hash.tableMachine Int RecordId).exec (Hash.Store.new type) calls = some (store, answers) ∧
    Hash.Represents store m

/-- More calls that fit lead on to the entries that a map has after them. -/
theorem Tabled.append {type : DictType Int} {m next : Dict Int RecordId}
    {calls more : List (Hash.Call Int RecordId)} (tabled : Tabled type m calls)
    (fit : ∀ store, Hash.Represents store m →
      (Hash.tableMachine Int RecordId).Meets (fun store call => call.Fits store) store more)
    {answers : List (Hash.Answer Int RecordId)}
    (map : (Hash.mapMachine Int RecordId).exec m more = some (next, answers)) :
    Tabled type next (calls ++ more) := by
  obtain ⟨store, before, ran, rep⟩ := tabled.table
  have fits := fit store rep
  refine ⟨((Hash.tableMachine Int RecordId).meets_append ran).mpr ⟨tabled.fits, fits⟩, ?_⟩
  -- The calls go through on the table, and are answered as by the map.
  obtain ⟨store', m', after, ran', map', rep'⟩ := Hash.exec_represents rep fits
  obtain rfl : m' = next := by
    rw [map'] at map
    cases map
    rfl
  exact ⟨store', before ++ after, (Hash.tableMachine Int RecordId).exec_append ran ran', rep'⟩

/-- Each step keeps the table to the registry. -/
theorem Tabled.step {type : DictType Int} {calls : List (Hash.Call Int RecordId)} {n : Nat}
    {drains : Processor → FdEvent} {system next : TeardownSystem n} {action : TeardownAction n}
    {events : List RecordId} (tabled : Tabled type system.sys.io.ioDict calls)
    (within : AddsWithin system action)
    (taken : (teardownMachine n drains).step system action = some (next, events)) :
    Tabled type next.sys.io.ioDict (calls ++ system.tableCalls action) := by
  unfold TeardownSystem.tableCalls
  cases changesRegistry_of_step taken with
  | leaves none_ same =>
    rw [none_, same]
    simpa using tabled
  | calls io api made ioDict stop after adds =>
    obtain ⟨answers, map⟩ := io.exec_tableCalls api
    rw [made, after]
    rw [← ioDict] at tabled
    refine tabled.append (fun store rep => io.tableCalls_fit rep api ?_) map
    -- Where the call adds an fd, the registry is small enough.
    intro fd is
    rw [adds fd is] at within
    rw [ioDict]
    exact within

end Cevent
