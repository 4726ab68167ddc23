import Cevent.Library.Machine
import Cevent.Pool.WorkPool

/-! The thread pool: its threads, the callbacks that run in them, and `ce_tp_destroy`. -/

namespace Cevent

open Interleaving

/-- `struct ce_tp_worker`, named by how many were allocated before it. -/
structure CeTpWorker where
  id : Nat
  /-- Whether `complete_cb` is not `NULL`. -/
  completeCb : Bool
  deriving DecidableEq, Repr

/-- The callbacks that `ce_tp_worker_register` is given, `true` for one that is not `NULL`. -/
structure WorkerArg where
  processCb : Bool
  completeCb : Bool
  deriving DecidableEq, Repr

/-- What happens to a worker in its life. -/
inductive WorkerEvent where
  /-- It was inserted, and its handle is returned. -/
  | registered
  /-- It was taken out of `worker_queue` to be executed. -/
  | removed
  | processCalled
  | processReturned
  | completeCalled
  | completeReturned
  /-- `ce_tp_worker_free` freed it, called by `ce_tp_routine`. -/
  | freedByRoutine
  /-- The loop at the end of `ce_tp_destroy` freed it. -/
  | freedByDestroy
  deriving DecidableEq, Repr

/-- The two callbacks of a worker. -/
inductive Callback where
  | process
  | complete
  deriving DecidableEq, Repr

/-- Where a thread stands in `ce_tp_routine`. -/
inductive RoutinePc where
  /-- At the loop condition, which reads `abort` outside the mutex. -/
  | loopTest
  /-- About to lock the mutex. -/
  | lock
  /-- In `pthread_cond_wait`. -/
  | waiting
  /-- The mutex is unlocked again, and `process_cb` is to be called. -/
  | taken (worker : CeTpWorker)
  /-- In a callback, which may have begun to register a worker with such a `complete_cb`. -/
  | calling (callback : Callback) (worker : CeTpWorker) (registering : Option Bool)
  /-- `process_cb` has returned. -/
  | processed (worker : CeTpWorker)
  /-- The callbacks are done, and `ce_tp_worker_free` is to be called. -/
  | freeing (worker : CeTpWorker)
  | exited
  deriving DecidableEq, Repr

/-- Where the one call of `ce_tp_destroy` stands. -/
inductive DestroyPc where
  | notCalled
  /-- In the loop that waits until `worker_queue` is seen empty. -/
  | draining
  /-- About to set `abort` under the mutex. -/
  | aborting
  /-- About to join the thread of an index. -/
  | joining (index : Nat)
  /-- In the loop that frees what is still queued. -/
  | cleanup
  | returned
  deriving DecidableEq, Repr

/-- `ce_tp_kill`. -/
inductive CeTpKill where
  | immediate
  | wait
  deriving DecidableEq, Repr

/-- `struct ce_tp` with its threads, and where its destruction stands. -/
structure CeTp (n : Nat) where
  pool : WorkPool CeTpWorker
  thread : Fin n → RoutinePc
  destroyer : DestroyPc
  /-- How many workers were ever allocated. -/
  allocated : Nat

/-- A step of one party. -/
inductive PoolAction (n : Nat) where
  /-- `ce_tp_worker_register` by a thread that is none of the pool's. -/
  | register (arg : WorkerArg)
  /-- The next step of `ce_tp_routine` in one thread. -/
  | routine (index : Fin n)
  /-- The callback that runs in a thread calls `ce_tp_worker_register`. -/
  | callbackRegisters (index : Fin n) (arg : WorkerArg)
  /-- The callback that runs in a thread returns. -/
  | callbackReturns (index : Fin n)
  /-- `ce_tp_destroy` is called. -/
  | destroy
  /-- The next step of `ce_tp_destroy`. -/
  | destroyer
  deriving DecidableEq, Repr

/-- An event in the life of a worker. -/
abbrev PoolEvent := CeTpWorker × WorkerEvent

namespace CeTp

variable {n : Nat}

/-- `ce_tp_create`, once its threads have started. -/
def create (n : Nat) : CeTp n where
  pool := { workerQueue := [], abort := false }
  thread := fun _ => .loopTest
  -- No job is queued, and `ce_tp_destroy` will be called once at most.
  destroyer := .notCalled
  allocated := 0

/-- One thread moves on to another place. -/
def goto (tp : CeTp n) (index : Fin n) (pc : RoutinePc) : CeTp n :=
  { tp with thread := Function.update tp.thread index pc }

/-- The section of `ce_tp_worker_register` under the mutex, for a new worker. -/
def insert (tp : CeTp n) (completeCb : Bool) : CeTp n × List PoolEvent :=
  let worker : CeTpWorker := { id := tp.allocated, completeCb := completeCb }
  -- The worker joins the end of the queue, where the threads take from the front.
  ({ tp with pool := tp.pool.insertTail worker, allocated := tp.allocated + 1 },
    [(worker, .registered)])

/-- The section of `ce_tp_routine` under the mutex, entered by locking it or by waking up. -/
def takeFirst (tp : CeTp n) (index : Fin n) : CeTp n × List PoolEvent :=
  match tp.pool.workerQueue with
  -- An empty queue is left on an abort, and else waited for.
  | [] => (tp.goto index (if tp.pool.abort then .exited else .waiting), [])
  | worker :: others =>
    ({ tp with pool := { tp.pool with workerQueue := others } }.goto index (.taken worker),
      [(worker, .removed)])

/-- The next step of `ce_tp_routine`, when it is not up to a callback. -/
def ceTpRoutine (tp : CeTp n) (index : Fin n) : Option (CeTp n × List PoolEvent) :=
  match tp.thread index with
  | .loopTest => some (tp.goto index (if tp.pool.abort then .exited else .lock), [])
  | .lock | .waiting => some (tp.takeFirst index)
  | .taken worker =>
    some (tp.goto index (.calling .process worker none), [(worker, .processCalled)])
  -- The second half of a registration that the callback has begun.
  | .calling callback worker (some completeCb) =>
    let (tp, events) := tp.insert completeCb
    some (tp.goto index (.calling callback worker none), events)
  -- The callback's own actions move the thread on.
  | .calling _ _ none => none
  | .processed worker =>
    if worker.completeCb then
      some (tp.goto index (.calling .complete worker none), [(worker, .completeCalled)])
    else some (tp.goto index (.freeing worker), [])
  | .freeing worker =>
    -- `ce_tp_worker_free` looks for the worker in the queue before it frees it.
    let queue := tp.pool.workerQueue.erase worker
    some ({ tp with pool := { tp.pool with workerQueue := queue } }.goto index .loopTest,
      [(worker, .freedByRoutine)])
  | .exited => none

/-- The part of `ce_tp_worker_register` before the mutex, which returns `NULL` or goes on. -/
def registerPasses (tp : CeTp n) (arg : WorkerArg) : Bool :=
  -- `abort` is read here without the mutex, so it may be set before the insertion.
  !tp.pool.abort && arg.processCb

/-- A running callback calls `ce_tp_worker_register`. -/
def callbackRegisters (tp : CeTp n) (index : Fin n) (arg : WorkerArg) :
    Option (CeTp n × List PoolEvent) :=
  match tp.thread index with
  | .calling callback worker none =>
    if tp.registerPasses arg then
      some (tp.goto index (.calling callback worker (some arg.completeCb)), [])
    else some (tp, [])
  | _ => none

/-- A running callback returns. -/
def callbackReturns (tp : CeTp n) (index : Fin n) : Option (CeTp n × List PoolEvent) :=
  match tp.thread index with
  | .calling .process worker none =>
    some (tp.goto index (.processed worker), [(worker, .processReturned)])
  | .calling .complete worker none =>
    some (tp.goto index (.freeing worker), [(worker, .completeReturned)])
  | _ => none

/-- The next step of `ce_tp_destroy`, once it was called. -/
def ceTpDestroy (tp : CeTp n) : Option (CeTp n × List PoolEvent) :=
  match tp.destroyer with
  | .notCalled => none
  | .draining =>
    -- The queue is looked at without the mutex, and again after some sleep.
    some ({ tp with destroyer := if tp.pool.workerQueue = [] then .aborting else .draining }, [])
  | .aborting =>
    some ({ tp with pool := { tp.pool with abort := true }, destroyer := .joining 0 }, [])
  | .joining index =>
    if inside : index < n then
      -- `pthread_join` waits for the thread to leave its loop.
      if tp.thread ⟨index, inside⟩ = .exited then
        some ({ tp with destroyer := .joining (index + 1) }, [])
      else none
    else some ({ tp with destroyer := .cleanup }, [])
  | .cleanup =>
    match tp.pool.workerQueue with
    | [] => some ({ tp with destroyer := .returned }, [])
    -- What is left in the queue is freed without being run.
    | worker :: others =>
      some ({ tp with pool := { tp.pool with workerQueue := others } },
        [(worker, .freedByDestroy)])
  | .returned => none

end CeTp

/-- A pool of any number of threads that is destroyed once, in one of the two ways. -/
def poolMachine (n : Nat) (type : CeTpKill) : Machine (CeTp n) (PoolAction n) PoolEvent where
  step tp
    | .register arg =>
      -- Other threads register before `ce_tp_destroy` is called.
      if tp.destroyer = .notCalled then
        if tp.registerPasses arg then some (tp.insert arg.completeCb) else some (tp, [])
      else none
    | .routine index => tp.ceTpRoutine index
    | .callbackRegisters index arg => tp.callbackRegisters index arg
    | .callbackReturns index => tp.callbackReturns index
    | .destroy =>
      -- On an aborted pool the call returns at once, and there is one call only.
      if tp.destroyer = .notCalled then
        some ({ tp with destroyer := if type = .wait then .draining else .aborting }, [])
      else none
    | .destroyer => tp.ceTpDestroy

end Cevent
