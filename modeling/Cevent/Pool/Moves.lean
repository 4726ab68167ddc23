import Cevent.Pool.Lives

/-! Every step of a pool, with what it needs and what it does. -/

namespace Cevent

open Interleaving

/-- The events that a worker's own thread adds to its life before it is freed. -/
def WorkerEvent.isCallback : WorkerEvent → Bool
  | .processCalled | .processReturned | .completeCalled | .completeReturned => true
  | .registered | .removed | .freedByRoutine | .freedByDestroy => false

/-- The destruction has seen the queue empty, or has not waited for that. -/
def DestroyPc.pastDrain : DestroyPc → Bool
  | .notCalled | .draining => false
  | .aborting | .joining _ | .cleanup | .returned => true

/-- The destruction has set `abort`. -/
def DestroyPc.aborted : DestroyPc → Bool
  | .notCalled | .draining | .aborting => false
  | .joining _ | .cleanup | .returned => true

/-- How many of the threads the destruction has joined. -/
def DestroyPc.joined (n : Nat) : DestroyPc → Nat
  | .notCalled | .draining | .aborting => 0
  | .joining index => index
  | .cleanup | .returned => n

/-- A step of a pool, by what it does to the threads, the queue and the destruction. -/
inductive PoolMove {n : Nat} (type : CeTpKill) (tp : CeTp n) :
    PoolAction n → CeTp n → List PoolEvent → Prop where
  /-- Nothing changes: a registration is refused, or the queue is not drained yet. -/
  | stay {action : PoolAction n} : PoolMove type tp action tp []
  /-- A thread goes on with what it holds. -/
  | turn {action : PoolAction n} (index : Fin n) (pc : RoutinePc)
      (running : tp.thread index ≠ .exited) (on : pc ≠ .exited)
      (worker : pc.worker = (tp.thread index).worker)
      (life : pc.life = (tp.thread index).life) (fits : pc.Fits) :
      PoolMove type tp action (tp.goto index pc) []
  /-- A callback of the worker that a thread holds is called, or returns. -/
  | callback {action : PoolAction n} (index : Fin n) (pc : RoutinePc) (worker : CeTpWorker)
      (event : WorkerEvent) (kind : event.isCallback = true)
      (holds : (tp.thread index).worker = some worker) (keeps : pc.worker = some worker)
      (life : pc.life = (tp.thread index).life ++ [event]) (fits : pc.Fits) :
      PoolMove type tp action (tp.goto index pc) [(worker, event)]
  /-- A thread takes the first worker of the queue. -/
  | take {action : PoolAction n} (index : Fin n) (worker : CeTpWorker) (others : List CeTpWorker)
      (running : tp.thread index ≠ .exited) (idle : (tp.thread index).worker = none)
      (first : tp.pool.workerQueue = worker :: others) :
      PoolMove type tp action
        ({ tp with pool := { tp.pool with workerQueue := others } }.goto index (.taken worker))
        [(worker, .removed)]
  /-- A thread finds `abort` set, at its loop test or with the mutex locked and an empty queue. -/
  | leave (index : Fin n) (running : tp.thread index ≠ .exited)
      (idle : (tp.thread index).worker = none) (aborted : tp.pool.abort = true)
      (drained : tp.thread index ≠ .loopTest → tp.pool.workerQueue = []) :
      PoolMove type tp (.routine index) (tp.goto index .exited) []
  /-- A thread frees the worker it holds. -/
  | free {action : PoolAction n} (index : Fin n) (worker : CeTpWorker)
      (place : tp.thread index = .freeing worker) :
      PoolMove type tp action
        ({ tp with pool := { tp.pool with
          workerQueue := tp.pool.workerQueue.erase worker } }.goto index .loopTest)
        [(worker, .freedByRoutine)]
  /-- Another thread registers a worker. -/
  | registerOutside {action : PoolAction n} (completeCb : Bool)
      (open_ : tp.destroyer = .notCalled) :
      PoolMove type tp action (tp.insert completeCb).1 (tp.insert completeCb).2
  /-- A callback registers a worker. -/
  | registerInside {action : PoolAction n} (index : Fin n) (completeCb : Bool)
      (callback : Callback) (worker : CeTpWorker)
      (place : tp.thread index = .calling callback worker (some completeCb)) :
      PoolMove type tp action
        ((tp.insert completeCb).1.goto index (.calling callback worker none))
        (tp.insert completeCb).2
  /-- `ce_tp_destroy` is called. -/
  | call {action : PoolAction n} (open_ : tp.destroyer = .notCalled) :
      PoolMove type tp action
        { tp with destroyer := if type = .wait then .draining else .aborting } []
  /-- The queue is seen empty. -/
  | drained {action : PoolAction n} (place : tp.destroyer = .draining)
      (empty : tp.pool.workerQueue = []) :
      PoolMove type tp action { tp with destroyer := .aborting } []
  /-- `abort` is set. -/
  | abort {action : PoolAction n} (place : tp.destroyer = .aborting) :
      PoolMove type tp action
        { tp with pool := { tp.pool with abort := true }, destroyer := .joining 0 } []
  /-- A thread is joined. -/
  | join {action : PoolAction n} (index : Fin n) (place : tp.destroyer = .joining index)
      (exited : tp.thread index = .exited) :
      PoolMove type tp action { tp with destroyer := .joining (index + 1) } []
  /-- All threads are joined. -/
  | joined {action : PoolAction n} (index : Nat) (place : tp.destroyer = .joining index)
      (all : n ≤ index) : PoolMove type tp action { tp with destroyer := .cleanup } []
  /-- The first worker of the queue is freed. -/
  | clean {action : PoolAction n} (worker : CeTpWorker) (others : List CeTpWorker)
      (place : tp.destroyer = .cleanup) (first : tp.pool.workerQueue = worker :: others) :
      PoolMove type tp action { tp with pool := { tp.pool with workerQueue := others } }
        [(worker, .freedByDestroy)]
  /-- `ce_tp_destroy` returns. -/
  | done {action : PoolAction n} (place : tp.destroyer = .cleanup)
      (empty : tp.pool.workerQueue = []) :
      PoolMove type tp action { tp with destroyer := .returned } []

namespace PoolMove

variable {n : Nat} {type : CeTpKill} {tp next : CeTp n} {events : List PoolEvent}

/-- The section of `ce_tp_routine` under the mutex. -/
theorem of_takeFirst {index : Fin n} (running : tp.thread index ≠ .exited)
    (idle : (tp.thread index).worker = none) (nothing : (tp.thread index).life = []) :
    PoolMove type tp (.routine index) (tp.takeFirst index).1 (tp.takeFirst index).2 := by
  unfold CeTp.takeFirst
  cases queue : tp.pool.workerQueue with
  | nil =>
    cases aborted : tp.pool.abort with
    | true => exact .leave index running idle aborted (fun _ => queue)
    | false =>
      -- The thread waits, and holds nothing still.
      refine .turn index .waiting running (by simp) ?_ ?_ trivial
      · rw [idle]
        rfl
      · rw [nothing]
        rfl
  | cons worker others => exact .take index worker others running idle queue

/-- The loop condition of `ce_tp_routine`. -/
theorem of_loopTest {index : Fin n} (place : tp.thread index = .loopTest) :
    PoolMove type tp (.routine index)
      (tp.goto index (if tp.pool.abort then .exited else .lock)) [] := by
  cases aborted : tp.pool.abort with
  | true =>
    -- The loop is left whatever is queued, since the condition is all that was looked at.
    refine .leave index ?_ ?_ aborted ?_
    · simp [place]
    · simp [place, RoutinePc.worker]
    · intro elsewhere
      exact absurd place elsewhere
  | false =>
    refine .turn index .lock ?_ ?_ ?_ ?_ trivial <;>
      simp [place, RoutinePc.worker, RoutinePc.life]

/-- A thread whose `process_cb` has returned calls `complete_cb`, when there is one. -/
theorem of_processed {index : Fin n} {worker : CeTpWorker}
    (place : tp.thread index = .processed worker)
    (taken : (if worker.completeCb then
      some (tp.goto index (.calling .complete worker none), [(worker, .completeCalled)])
      else some (tp.goto index (.freeing worker), [])) = some (next, events)) :
    PoolMove type tp (.routine index) next events := by
  cases complete : worker.completeCb with
  | true =>
    simp only [complete, if_true, Option.some.injEq, Prod.mk.injEq] at taken
    obtain ⟨rfl, rfl⟩ := taken
    exact .callback index _ worker .completeCalled rfl (by rw [place]; rfl) rfl
      (by rw [place]; rfl) complete
  | false =>
    simp only [complete, Bool.false_eq_true, if_false, Option.some.injEq, Prod.mk.injEq] at taken
    obtain ⟨rfl, rfl⟩ := taken
    -- Without a `complete_cb` nothing is added to the life of the worker.
    refine .turn index _ ?_ ?_ ?_ ?_ trivial
    · simp [place]
    · simp
    · rw [place]
      rfl
    · simp [place, RoutinePc.life, CeTpWorker.calledLife, complete]

/-- The steps of `ce_tp_routine`. -/
theorem of_routine {index : Fin n}
    (taken : tp.ceTpRoutine index = some (next, events)) :
    PoolMove type tp (.routine index) next events := by
  -- One case for each place of the thread.
  unfold CeTp.ceTpRoutine at taken
  cases place : tp.thread index with
  | loopTest =>
    simp only [place, Option.some.injEq, Prod.mk.injEq] at taken
    obtain ⟨rfl, rfl⟩ := taken
    exact of_loopTest place
  | lock | waiting =>
    simp only [place, Option.some.injEq] at taken
    -- Locking the mutex and waking up from the wait lead to the same section.
    have move : PoolMove type tp (.routine index) _ _ := of_takeFirst (by simp [place])
      (by simp [place, RoutinePc.worker]) (by simp [place, RoutinePc.life])
    rwa [taken] at move
  | taken worker =>
    simp only [place, Option.some.injEq, Prod.mk.injEq] at taken
    obtain ⟨rfl, rfl⟩ := taken
    exact .callback index _ worker .processCalled rfl (by rw [place]; rfl) rfl
      (by rw [place]; rfl) trivial
  | calling callback worker registering =>
    cases registering with
    -- A running callback is not moved on by the thread itself.
    | none => simp [place] at taken
    | some completeCb =>
      simp only [place, Option.some.injEq, Prod.mk.injEq] at taken
      obtain ⟨rfl, rfl⟩ := taken
      exact .registerInside index completeCb callback worker place
  | processed worker =>
    rw [place] at taken
    exact of_processed place taken
  | freeing worker =>
    simp only [place, Option.some.injEq, Prod.mk.injEq] at taken
    obtain ⟨rfl, rfl⟩ := taken
    exact .free index worker place
  | exited => simp [place] at taken

/-- A running callback that registers a worker. -/
theorem of_callbackRegisters {index : Fin n} {arg : WorkerArg} (fits : (tp.thread index).Fits)
    (taken : tp.callbackRegisters index arg = some (next, events)) :
    PoolMove type tp (.callbackRegisters index arg) next events := by
  unfold CeTp.callbackRegisters at taken
  split at taken
  · rename_i callback worker place
    rw [place] at fits
    split at taken
    · cases taken
      -- The registration has passed its checks, and comes to the mutex in a later step.
      refine .turn index _ ?_ ?_ ?_ ?_ ?_
      · simp [place]
      · simp
      · rw [place]
        rfl
      · cases callback <;> simp [place, RoutinePc.life]
      · cases callback <;> exact fits
    · cases taken
      -- The registration is refused, and `NULL` is returned to the callback.
      exact .stay
  · cases taken

/-- A callback that returns. -/
theorem of_callbackReturns {index : Fin n} (fits : (tp.thread index).Fits)
    (taken : tp.callbackReturns index = some (next, events)) :
    PoolMove type tp (.callbackReturns index) next events := by
  unfold CeTp.callbackReturns at taken
  split at taken
  · rename_i worker place
    cases taken
    exact .callback index _ worker .processReturned rfl (by rw [place]; rfl) rfl
      (by rw [place]; rfl) trivial
  · rename_i worker place
    rw [place] at fits
    cases taken
    -- A thread is in `complete_cb` for a worker that has one only.
    have complete : worker.completeCb = true := fits
    refine .callback index _ worker .completeReturned rfl (by rw [place]; rfl) rfl ?_ trivial
    simp [place, RoutinePc.life, CeTpWorker.calledLife, complete]
  · cases taken

/-- The steps of `ce_tp_destroy`. -/
theorem of_destroyer (taken : tp.ceTpDestroy = some (next, events)) :
    PoolMove type tp .destroyer next events := by
  -- One case for each stage of the destruction.
  unfold CeTp.ceTpDestroy at taken
  split at taken
  case h_1 place => cases taken
  case h_2 place =>
    cases taken
    by_cases empty : tp.pool.workerQueue = []
    · rw [if_pos empty]
      exact .drained place empty
    · rw [if_neg empty, ← place]
      -- The destruction sleeps and will look again.
      exact .stay
  case h_3 place =>
    cases taken
    exact .abort place
  case h_4 index place =>
    split at taken
    · rename_i inside
      split at taken
      · rename_i exited
        cases taken
        exact .join ⟨index, inside⟩ place exited
      · cases taken
    · rename_i outside
      cases taken
      exact .joined index place (Nat.not_lt.mp outside)
  case h_5 place =>
    split at taken
    · rename_i empty
      cases taken
      exact .done place empty
    · rename_i worker others first
      cases taken
      exact .clean worker others place first
  case h_6 place => cases taken

/-- A pool takes no other steps. -/
theorem of_step {action : PoolAction n} (fits : ∀ index, (tp.thread index).Fits)
    (taken : (poolMachine n type).step tp action = some (next, events)) :
    PoolMove type tp action next events := by
  -- Each action leads to the branch of the source that it is named after.
  cases action with
  | register arg =>
    simp only [poolMachine] at taken
    split at taken
    · rename_i open_
      split at taken
      · have move : PoolMove type tp (.register arg) _ _ :=
          .registerOutside arg.completeCb open_
        rwa [Option.some.inj taken] at move
      · cases taken
        exact .stay
    · cases taken
  | routine index => exact of_routine taken
  | callbackRegisters index arg => exact of_callbackRegisters (fits index) taken
  | callbackReturns index => exact of_callbackReturns (fits index) taken
  | destroy =>
    simp only [poolMachine] at taken
    split at taken
    · rename_i open_
      cases taken
      exact .call open_
    · cases taken
  | destroyer => exact of_destroyer taken

end PoolMove

end Cevent
