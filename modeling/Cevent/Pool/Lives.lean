import Cevent.Library.History
import Cevent.Pool.Machine

/-! The life of a worker, from its registration to the place where it is freed. -/

namespace Cevent

open Interleaving

/-- The worker that a thread has taken and not freed yet. -/
def RoutinePc.worker : RoutinePc → Option CeTpWorker
  | .taken worker | .calling _ worker _ | .processed worker | .freeing worker => some worker
  | .loopTest | .lock | .waiting | .exited => none

/-- The life of a worker whose `process_cb` has returned. -/
def processedLife : List WorkerEvent := [.registered, .removed, .processCalled, .processReturned]

/-- The life so far of a worker whose callbacks have returned. -/
def CeTpWorker.calledLife (worker : CeTpWorker) : List WorkerEvent :=
  -- A worker without a `complete_cb` goes from its processing straight to the end.
  processedLife ++ if worker.completeCb then [.completeCalled, .completeReturned] else []

/-- The life of a worker that ran. -/
def CeTpWorker.ranLife (worker : CeTpWorker) : List WorkerEvent :=
  worker.calledLife ++ [.freedByRoutine]

/-- The life of a worker that `ce_tp_destroy` freed. -/
def cleanedLife : List WorkerEvent := [.registered, .freedByDestroy]

/-- The life so far of the worker that a thread holds. -/
def RoutinePc.life : RoutinePc → List WorkerEvent
  | .taken _ => [.registered, .removed]
  | .calling .process _ _ => [.registered, .removed, .processCalled]
  | .processed _ => processedLife
  -- `complete_cb` is called once `process_cb` has returned.
  | .calling .complete _ _ => processedLife ++ [.completeCalled]
  | .freeing worker => worker.calledLife
  | .loopTest | .lock | .waiting | .exited => []

/-- A thread is in `complete_cb` for a worker that has one. -/
def RoutinePc.Fits : RoutinePc → Prop
  | .calling .complete worker _ => worker.completeCb = true
  | _ => True

/-- Where a worker is. -/
inductive Place (n : Nat) where
  | unregistered
  | queued
  | held (index : Fin n)
  | ran
  | cleaned
  deriving DecidableEq

/-- The life so far of a worker in its place. -/
def CeTp.lifeAt {n : Nat} (tp : CeTp n) (worker : CeTpWorker) : Place n → List WorkerEvent
  | .unregistered => []
  | .queued => [.registered]
  | .held index => (tp.thread index).life
  | .ran => worker.ranLife
  | .cleaned => cleanedLife

/-- Every worker is in one place, and its history is the life that leads to it. -/
structure Placed {n : Nat} (tp : CeTp n) (trace : List PoolEvent)
    (place : CeTpWorker → Place n) : Prop where
  nodup : tp.pool.workerQueue.Nodup
  fresh : ∀ worker, tp.allocated ≤ worker.id → place worker = .unregistered
  queued : ∀ worker, worker ∈ tp.pool.workerQueue ↔ place worker = .queued
  held : ∀ worker index, (tp.thread index).worker = some worker ↔ place worker = .held index
  life : ∀ worker, history worker trace = tp.lifeAt worker (place worker)
  fits : ∀ index, (tp.thread index).Fits

namespace Placed

variable {n : Nat} {tp : CeTp n} {trace : List PoolEvent} {place : CeTpWorker → Place n}

/-- In a new pool no worker is registered. -/
theorem create (n : Nat) : Placed (CeTp.create n) [] (fun _ => .unregistered) where
  nodup := .nil
  fresh := fun _ _ => rfl
  queued := by simp [CeTp.create]
  held := by simp [CeTp.create, RoutinePc.worker]
  life := fun _ => rfl
  fits := fun _ => trivial

/-- A worker that nobody holds and that is not queued has a whole life, or none. -/
theorem life_of_gone (placed : Placed tp trace place) {worker : CeTpWorker}
    (idle : ∀ index, (tp.thread index).worker = none) (gone : worker ∉ tp.pool.workerQueue) :
    history worker trace = [] ∨ history worker trace = worker.ranLife ∨
      history worker trace = cleanedLife := by
  have life := placed.life worker
  -- The only places left are those of a worker that never was or that was freed.
  cases where_ : place worker with
  | unregistered =>
    rw [where_] at life
    exact .inl life
  -- A queued worker is in the queue, which it is not.
  | queued => exact absurd ((placed.queued worker).mpr where_) gone
  | held index =>
    have holds := (placed.held worker index).mpr where_
    rw [idle index] at holds
    cases holds
  | ran =>
    rw [where_] at life
    exact .inr (.inl life)
  | cleaned =>
    rw [where_] at life
    exact .inr (.inr life)

/-- What a thread holds stays queued by nobody. -/
theorem not_mem_of_held (placed : Placed tp trace place) {index : Fin n} {worker : CeTpWorker}
    (holds : (tp.thread index).worker = some worker) : worker ∉ tp.pool.workerQueue := by
  -- A worker has one place, and the queue and a thread are two.
  intro inside
  have one := (placed.queued worker).mp inside
  rw [(placed.held worker index).mp holds] at one
  cases one

/--
A worker comes to another place by events of its own.

The other workers stay where they are, and nothing happens to them.
-/
theorem moves (placed : Placed tp trace place) {next : CeTp n} {events : List PoolEvent}
    {worker : CeTpWorker} {target : Place n}
    (nodup : next.pool.workerQueue.Nodup)
    (fresh : tp.allocated ≤ next.allocated)
    (known : worker.id < next.allocated)
    (queued : worker ∈ next.pool.workerQueue ↔ target = .queued)
    (held : ∀ index, (next.thread index).worker = some worker ↔ target = .held index)
    (life : history worker trace ++ history worker events = next.lifeAt worker target)
    (othersQueued : ∀ other, other ≠ worker →
      (other ∈ next.pool.workerQueue ↔ other ∈ tp.pool.workerQueue))
    (othersHeld : ∀ other, other ≠ worker → ∀ index,
      ((next.thread index).worker = some other ↔ (tp.thread index).worker = some other) ∧
      ((tp.thread index).worker = some other → (next.thread index).life = (tp.thread index).life))
    (othersLive : ∀ other, other ≠ worker → history other events = [])
    (fits : ∀ index, (next.thread index).Fits) :
    Placed next (trace ++ events) (Function.update place worker target) where
  nodup := nodup
  fresh := by
    intro other new
    have apart : other ≠ worker := by
      rintro rfl
      exact absurd known (Nat.not_lt.mpr new)
    rw [Function.update_of_ne apart]
    exact placed.fresh other (Nat.le_trans fresh new)
  queued := by
    intro other
    -- The worker that moves has its new place, and each other one its old place.
    by_cases same : other = worker
    · rw [same, Function.update_self]
      exact queued
    · rw [Function.update_of_ne same, othersQueued other same]
      exact placed.queued other
  held := by
    intro other index
    by_cases same : other = worker
    · rw [same, Function.update_self]
      exact held index
    · rw [Function.update_of_ne same, (othersHeld other same index).1]
      exact placed.held other index
  life := by
    intro other
    rw [history_append]
    by_cases same : other = worker
    · rw [same, Function.update_self]
      exact life
    · rw [Function.update_of_ne same, othersLive other same, List.append_nil, placed.life other]
      cases where_ : place other with
      | unregistered | queued | ran | cleaned => rfl
      | held index =>
        have holds := (placed.held other index).mpr where_
        -- A thread that holds another worker has not moved on.
        exact ((othersHeld other same index).2 holds).symm
  fits := fits

end Placed

end Cevent
