import Cevent.Library.Machine

/-! The pool at the statements of `ce_tp_routine`, and the calls on handles that run beside them. -/

namespace Cevent

open Interleaving

/-- `ce_tp_state`. -/
inductive CeTpState where
  | idle
  | busy
  | complete
  | invalid
  deriving DecidableEq, Repr

/-- `struct ce_tp_worker` with the parts that a job and the calls on its handle use. -/
structure TpWorker (ρ : Type*) where
  /-- Whether `complete_cb` is not `NULL`. -/
  completeCb : Bool
  /-- What `process_cb` returned, `none` for `NULL`. -/
  result : Option ρ
  state : CeTpState
  /-- The value of the semaphore. -/
  sem : Nat
  deriving DecidableEq, Repr

/-- What a thread is about to do with the worker that it has taken. -/
inductive RoutineStage (ρ : Type*) where
  /-- Store `tp_state_busy`. -/
  | taken
  /-- Return from `process_cb`. -/
  | processing
  /-- Store what `process_cb` returned. -/
  | returned (value : Option ρ)
  /-- Store `tp_state_complete`. -/
  | stored
  /-- Post the semaphore. -/
  | completed
  /-- Look at `complete_cb`. -/
  | posted
  /-- Return from `complete_cb`. -/
  | completing
  /-- Look for the worker in the queue, in `ce_tp_worker_free`. -/
  | freeing
  /-- Post the semaphore once more. -/
  | unlinked
  /-- Destroy the semaphore and free the worker. -/
  | reposted
  deriving DecidableEq, Repr

/-- A statement of `ce_tp_routine` that changes the worker or looks at it only. -/
def RoutineStage.statement {ρ : Type*} (worker : TpWorker ρ) :
    RoutineStage ρ → Option (TpWorker ρ × RoutineStage ρ)
  | .taken => some ({ worker with state := .busy }, .processing)
  | .returned value => some ({ worker with result := value }, .stored)
  | .stored => some ({ worker with state := .complete }, .completed)
  | .completed => some ({ worker with sem := worker.sem + 1 }, .posted)
  | .posted => some (worker, if worker.completeCb then .completing else .freeing)
  | .unlinked => some ({ worker with sem := worker.sem + 1 }, .reposted)
  -- The callbacks return on their own, and the rest is done with the queue and the heap.
  | .processing | .completing | .freeing | .reposted => none

/-- What a call on a handle is about to do. -/
inductive HandleStage (ρ : Type*) where
  /-- Read the state, in `ce_tp_worker_touch`. -/
  | touching
  /-- Wait for the semaphore, in `ce_tp_worker_wait`. -/
  | waiting
  /-- Read the result behind the semaphore. -/
  | reading
  /-- Return the result that was read. -/
  | returning (value : Option ρ)
  deriving DecidableEq, Repr

/-- A call that returns does not use its handle any more. -/
def HandleStage.usesHandle {ρ : Type*} : HandleStage ρ → Bool
  | .touching | .waiting | .reading => true
  | .returning _ => false

/--
A pool that is not being destroyed, the workers registered on it, and the calls on their handles.

The threads of the pool make calls too, from their callbacks, besides any other threads.
-/
structure HandlePool (n : Nat) (θ ρ : Type*) where
  workerQueue : List Nat
  /-- The workers that are not freed. -/
  heap : Nat → Option (TpWorker ρ)
  /-- How many workers were ever allocated. -/
  allocated : Nat
  thread : Fin n → Option (Nat × RoutineStage ρ)
  caller : Fin n ⊕ θ → Option (Nat × HandleStage ρ)
  /-- What `process_cb` has returned for a worker, whether the worker is there still or not. -/
  processed : Nat → Option (Option ρ)

/-- A step of one party. -/
inductive HandleAction (n : Nat) (θ ρ : Type*) where
  /-- `ce_tp_worker_register`, with a `process_cb`. -/
  | register (caller : Fin n ⊕ θ) (completeCb : Bool)
  /-- `ce_tp_worker_touch` is called. -/
  | touch (caller : Fin n ⊕ θ) (id : Nat)
  /-- `ce_tp_worker_wait` is called. -/
  | wait (caller : Fin n ⊕ θ) (id : Nat)
  /-- The next step of such a call, and what it finds if its handle is freed. -/
  | call (caller : Fin n ⊕ θ) (garbage : TpWorker ρ)
  /-- The next statement of `ce_tp_routine` in one thread. -/
  | routine (index : Fin n)
  | processReturns (index : Fin n) (value : Option ρ)
  | completeReturns (index : Fin n)

/-- What callbacks and calls return. -/
inductive HandleEvent (ρ : Type*) where
  | processed (id : Nat) (value : Option ρ)
  | touched (id : Nat) (state : CeTpState)
  | waited (id : Nat) (value : Option ρ)
  deriving DecidableEq, Repr

namespace HandlePool

variable {n : Nat} {θ ρ : Type*}

/-- `ce_tp_create`, once its threads have started. -/
def create (n : Nat) (θ ρ : Type*) : HandlePool n θ ρ where
  workerQueue := []
  heap := fun _ => none
  allocated := 0
  thread := fun _ => none
  caller := fun _ => none
  processed := fun _ => none

/-- A thread has a worker changed, and goes on to another stage. -/
def stores (s : HandlePool n θ ρ) (index : Fin n) (id : Nat) (worker : TpWorker ρ)
    (stage : RoutineStage ρ) : HandlePool n θ ρ :=
  { s with
    heap := Function.update s.heap id (some worker)
    thread := Function.update s.thread index (some (id, stage)) }

/-- A thread that leaves its worker as it is only goes on to another stage. -/
theorem stores_self {s : HandlePool n θ ρ} {id : Nat} {worker : TpWorker ρ}
    (found : s.heap id = some worker) (index : Fin n) (stage : RoutineStage ρ) :
    s.stores index id worker stage =
      { s with thread := Function.update s.thread index (some (id, stage)) } := by
  rw [stores, ← found, Function.update_eq_self]

/-- The next statement of `ce_tp_routine`, when it is not up to a callback. -/
def ceTpRoutine (s : HandlePool n θ ρ) (index : Fin n) : Option (HandlePool n θ ρ) :=
  match s.thread index with
  | none =>
    match s.workerQueue with
    -- The thread waits for a worker.
    | [] => none
    | id :: others =>
      some { s with
        workerQueue := others
        thread := Function.update s.thread index (some (id, .taken)) }
  | some (id, stage) =>
    match s.heap id with
    | none => none
    | some worker =>
      match stage with
      | .freeing =>
        -- `ce_tp_worker_free` takes the worker out of the queue where it is still in there.
        some ({ s with workerQueue := s.workerQueue.erase id }.stores index id worker .unlinked)
      | .reposted =>
        some { s with
          heap := Function.update s.heap id none
          thread := Function.update s.thread index none }
      | stage => (stage.statement worker).map fun next => s.stores index id next.1 next.2

/-- What a statement of `ce_tp_routine` does in a thread. -/
inductive RoutineStep (s : HandlePool n θ ρ) (index : Fin n) : HandlePool n θ ρ → Prop where
  | takes (id : Nat) (others : List Nat) (place : s.thread index = none)
      (first : s.workerQueue = id :: others) :
      RoutineStep s index { s with
        workerQueue := others
        thread := Function.update s.thread index (some (id, .taken)) }
  | states (id : Nat) (worker after : TpWorker ρ) (stage next : RoutineStage ρ)
      (place : s.thread index = some (id, stage)) (found : s.heap id = some worker)
      (statement : stage.statement worker = some (after, next)) :
      RoutineStep s index (s.stores index id after next)
  | unlinks (id : Nat) (worker : TpWorker ρ) (place : s.thread index = some (id, .freeing))
      (found : s.heap id = some worker) :
      RoutineStep s index
        ({ s with workerQueue := s.workerQueue.erase id }.stores index id worker .unlinked)
  | frees (id : Nat) (worker : TpWorker ρ) (place : s.thread index = some (id, .reposted))
      (found : s.heap id = some worker) :
      RoutineStep s index { s with
        heap := Function.update s.heap id none
        thread := Function.update s.thread index none }

/-- A thread takes no other steps by itself. -/
theorem ceTpRoutine_cases {s next : HandlePool n θ ρ} {index : Fin n}
    (taken : s.ceTpRoutine index = some next) : s.RoutineStep index next := by
  unfold ceTpRoutine at taken
  -- A thread without a worker looks at the queue, and one with a worker at its stage.
  cases place : s.thread index with
  | none =>
    simp only [place] at taken
    split at taken
    · cases taken
    · rename_i id others first
      cases taken
      exact .takes id others place first
  | some held =>
    obtain ⟨id, stage⟩ := held
    simp only [place] at taken
    cases found : s.heap id with
    | none => simp [found] at taken
    | some worker =>
      simp only [found] at taken
      split at taken
      · cases taken
        exact .unlinks id worker place found
      · cases taken
        exact .frees id worker place found
      · obtain ⟨⟨after, after'⟩, statement, made⟩ := Option.map_eq_some_iff.mp taken
        cases made
        exact .states id worker after stage after' place found statement

/-- Whether the call of a thread still needs a handle. -/
def uses (s : HandlePool n θ ρ) (caller : Fin n ⊕ θ) (id : Nat) : Bool :=
  match s.caller caller with
  | some (other, stage) => other == id && stage.usesHandle
  | none => false

/-- No call of a thread needs a handle when those on it are about to return. -/
theorem uses_eq_false_iff {s : HandlePool n θ ρ} {caller : Fin n ⊕ θ} {id : Nat} :
    s.uses caller id = false ↔
      ∀ stage, s.caller caller = some (id, stage) → stage.usesHandle = false := by
  unfold uses
  cases call : s.caller caller with
  | none => simp
  | some at_ =>
    obtain ⟨other, stage⟩ := at_
    -- A call on another handle does not use this one.
    by_cases same : other = id <;> simp [same]

/-- Whether a thread may call: a pool thread does so from a callback only. -/
def mayCall (s : HandlePool n θ ρ) : Fin n ⊕ θ → Bool
  | .inl index =>
    match s.thread index with
    | some (_, .processing) | some (_, .completing) => true
    -- Outside of its callbacks a pool thread runs `ce_tp_routine` only.
    | _ => false
  | .inr _ => true

variable [DecidableEq θ]

/-- `ce_tp_worker_register`, which returns the handle of the new worker. -/
def ceTpWorkerRegister (s : HandlePool n θ ρ) (completeCb : Bool) : HandlePool n θ ρ :=
  -- A handle is a number that no worker had before, so a freed one stays known.
  { s with
    workerQueue := s.workerQueue ++ [s.allocated]
    heap := Function.update s.heap s.allocated
      (some { completeCb := completeCb, result := none, state := .idle, sem := 0 })
    allocated := s.allocated + 1 }

/-- A thread begins a call on a handle that a registration has returned. -/
def enters (s : HandlePool n θ ρ) (caller : Fin n ⊕ θ) (id : Nat) (stage : HandleStage ρ) :
    Option (HandlePool n θ ρ) :=
  if s.mayCall caller ∧ s.caller caller = none ∧ id < s.allocated then
    some { s with caller := Function.update s.caller caller (some (id, stage)) }
  else none

/-- The next step of a call, which finds anything behind a handle that is freed. -/
def ceTpWorkerCall (s : HandlePool n θ ρ) (caller : Fin n ⊕ θ) (garbage : TpWorker ρ) :
    Option (HandlePool n θ ρ × List (HandleEvent ρ)) :=
  match s.caller caller with
  | none => none
  | some (id, stage) =>
    let worker := (s.heap id).getD garbage
    let goto next := { s with caller := Function.update s.caller caller next }
    match stage with
    | .touching => some (goto none, [.touched id worker.state])
    | .waiting =>
      -- The call stays where it is until the semaphore is posted.
      if worker.sem = 0 then none
      else
        let taken := (s.heap id).map fun worker => { worker with sem := worker.sem - 1 }
        some ({ goto (some (id, .reading)) with heap := Function.update s.heap id taken }, [])
    | .reading => some (goto (some (id, .returning worker.result)), [])
    | .returning value => some (goto none, [.waited id value])

/-- The callback that runs in a thread returns, when it is in no call itself. -/
def processReturns (s : HandlePool n θ ρ) (index : Fin n) (value : Option ρ) :
    Option (HandlePool n θ ρ × List (HandleEvent ρ)) :=
  match s.thread index, s.caller (.inl index) with
  | some (id, .processing), none =>
    some ({ s with
      thread := Function.update s.thread index (some (id, .returned value))
      processed := Function.update s.processed id (some value) }, [.processed id value])
  | _, _ => none

/-- The same for `complete_cb`. -/
def completeReturns (s : HandlePool n θ ρ) (index : Fin n) : Option (HandlePool n θ ρ) :=
  match s.thread index, s.caller (.inl index) with
  | some (id, .completing), none =>
    some { s with thread := Function.update s.thread index (some (id, .freeing)) }
  | _, _ => none

end HandlePool

/-- The threads of the pool and the threads that call take their steps in any order. -/
def handleMachine (n : Nat) (θ ρ : Type*) [DecidableEq θ] :
    Machine (HandlePool n θ ρ) (HandleAction n θ ρ) (HandleEvent ρ) where
  step s action :=
    match action with
    | .register caller completeCb =>
      if s.mayCall caller ∧ s.caller caller = none then
        some (s.ceTpWorkerRegister completeCb, [])
      else none
    | .touch caller id => (s.enters caller id .touching).map fun next => (next, [])
    | .wait caller id => (s.enters caller id .waiting).map fun next => (next, [])
    | .call caller garbage => s.ceTpWorkerCall caller garbage
    | .routine index => (s.ceTpRoutine index).map fun next => (next, [])
    | .processReturns index value => s.processReturns index value
    | .completeReturns index => (s.completeReturns index).map fun next => (next, [])

end Cevent
