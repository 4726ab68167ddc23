import Mathlib.Data.List.Basic

/-! The part of a pool that its users share with its threads: the queue of jobs, and `abort`. -/

namespace Cevent

/-- The thread of a pool that has just one. -/
def onlyThread : Fin 1 := ⟨0, Nat.one_pos⟩

/-- The fields of `struct ce_tp` that a registration reads and writes, for any kind of job. -/
structure WorkPool (ι : Type) where
  workerQueue : List ι
  abort : Bool
  deriving DecidableEq, Repr

/-- The section under the mutex in which `ce_tp_worker_register` inserts a job. -/
def WorkPool.insertTail {ι : Type} (pool : WorkPool ι) (item : ι) : WorkPool ι :=
  { pool with workerQueue := pool.workerQueue ++ [item] }

/-- `ce_tp_worker_register` with a `process_cb`, with whether it returns a handle. -/
def ceTpWorkerRegister {ι : Type} (pool : WorkPool ι) (item : ι) : WorkPool ι × Bool :=
  if pool.abort then (pool, false) else (pool.insertTail item, true)

@[simp] theorem WorkPool.insertTail_workerQueue {ι : Type} (pool : WorkPool ι) (item : ι) :
    (pool.insertTail item).workerQueue = pool.workerQueue ++ [item] := rfl

end Cevent
