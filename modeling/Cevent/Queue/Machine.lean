import Cevent.Library.Machine
import Mathlib.Logic.Function.Basic

/-! The blocking queue, and the threads that push to it, get from it and stop it. -/

namespace Cevent

open Interleaving

/-- Where a thread stands between two sections under the mutex. -/
inductive CallerPc where
  /-- In no call on the queue. -/
  | outside
  /-- In the wait of `ce_queue_get`, which is timed when the timeout is positive. -/
  | waiting (timeout : Int)
  deriving DecidableEq, Repr

/-- `struct ce_queue` with the threads that use it; a body that is `NULL` is nothing. -/
structure CeQueue (α : Type) (n : Nat) where
  queue : List (Option α)
  stop : Bool
  caller : Fin n → CallerPc
  /-- What each thread's `*body` holds. -/
  body : Fin n → Option α

/-- What can be seen of a section. -/
inductive QueueEvent (α : Type) (n : Nat) where
  | pushed (body : Option α)
  /-- `ce_queue_get` returned, with this in `*body`. -/
  | got (index : Fin n) (ret : Int) (body : Option α)
  | stopped
  deriving DecidableEq, Repr

/-- A section under the mutex, by the thread that is in it. -/
inductive QueueAction (α : Type) (n : Nat) where
  | push (index : Fin n) (body : Option α)
  /-- The first section of `ce_queue_get`. -/
  | get (index : Fin n) (timeout : Int)
  /-- The section behind the wait, which ended by its timeout, or by a signal or for no reason. -/
  | wake (index : Fin n) (timedOut : Bool)
  | stop (index : Fin n)
  deriving DecidableEq, Repr

namespace CeQueue

variable {α : Type} {n : Nat}

/-- `ce_queue_new`, with whatever the threads have in their `*body`. -/
def new (body : Fin n → Option α) : CeQueue α n where
  queue := []
  stop := false
  caller := fun _ => .outside
  -- The caller's `*body` is not initialised by the queue.
  body := body

/-- An assignment to `*body`. -/
def setBody (q : CeQueue α n) (index : Fin n) (body : Option α) : CeQueue α n :=
  { q with body := Function.update q.body index body }

/-- `ce_queue_get` unlocks the mutex and returns. -/
def leave (q : CeQueue α n) (index : Fin n) (ret : Int) : CeQueue α n × List (QueueEvent α n) :=
  ({ q with caller := Function.update q.caller index .outside }, [.got index ret (q.body index)])

/-- The end of `ce_queue_get` that removes an item. -/
def handOut (q : CeQueue α n) (index : Fin n) (body : Option α) (others : List (Option α)) :
    CeQueue α n × List (QueueEvent α n) :=
  -- The item leaves the queue and its body is stored, before the mutex is released.
  ({ q.setBody index body with queue := others }).leave index 1

/-- `ce_queue_get` up to its wait, or to its end when it does not wait. -/
def ceQueueGet (q : CeQueue α n) (index : Fin n) (timeout : Int) :
    CeQueue α n × List (QueueEvent α n) :=
  -- The source stores `NULL` first, so a failed call leaves nothing behind.
  let q := q.setBody index none
  match q.queue with
  | body :: others => q.handOut index body others
  | [] =>
    -- On a stopped queue the loop is not entered, and `*body` is left as it is.
    if q.stop then q.leave index 0
    -- A timeout of zero does not wait, and a negative one waits without a limit.
    else if timeout = 0 then (q.setBody index none).leave index 0
    else ({ q with caller := Function.update q.caller index (.waiting timeout) }, [])

/-- `ce_queue_get` behind its wait. -/
def wakeUp (q : CeQueue α n) (index : Fin n) (timedOut : Bool) :
    CeQueue α n × List (QueueEvent α n) :=
  -- A stop is reported before an item that still waits.
  if q.stop then (q.setBody index none).leave index (-1)
  else
    match q.queue with
    | body :: others => q.handOut index body others
    -- The loop is left with the code that the wait has returned.
    | [] => (q.setBody index none).leave index (if timedOut then 0 else -1)

end CeQueue

/-- A queue and any number of threads, which are in one section at a time. -/
def queueMachine (α : Type) (n : Nat) :
    Machine (CeQueue α n) (QueueAction α n) (QueueEvent α n) where
  step q
    | .push index body =>
      if q.caller index = .outside then
        some ({ q with queue := q.queue ++ [body] }, [.pushed body])
      else none
    | .get index timeout =>
      -- A call is entered by a thread that is in no other one.
      if q.caller index = .outside then some (q.ceQueueGet index timeout) else none
    | .wake index timedOut =>
      match q.caller index with
      | .outside => none
      | .waiting timeout =>
        -- Only a timed wait can time out, and a signal is not needed to wake up.
        if timedOut = true → 0 < timeout then some (q.wakeUp index timedOut) else none
    | .stop index =>
      if q.caller index = .outside then some ({ q with stop := true }, [.stopped]) else none

variable {α : Type} {n : Nat}

/-- Which sections are entered, and what each of them leaves. -/
inductive QueueStep (q : CeQueue α n) :
    QueueAction α n → CeQueue α n → List (QueueEvent α n) → Prop where
  | push (index : Fin n) (body : Option α) (outside : q.caller index = .outside) :
      QueueStep q (.push index body) { q with queue := q.queue ++ [body] } [.pushed body]
  | get (index : Fin n) (timeout : Int) (outside : q.caller index = .outside) :
      QueueStep q (.get index timeout) (q.ceQueueGet index timeout).1 (q.ceQueueGet index timeout).2
  | wake (index : Fin n) (timedOut : Bool) (timeout : Int)
      (waits : q.caller index = .waiting timeout) (may : timedOut = true → 0 < timeout) :
      QueueStep q (.wake index timedOut) (q.wakeUp index timedOut).1 (q.wakeUp index timedOut).2
  | stop (index : Fin n) (outside : q.caller index = .outside) :
      QueueStep q (.stop index) { q with stop := true } [.stopped]

/-- A step of the machine is one of these. -/
theorem queueMachine_step {q next : CeQueue α n} {action : QueueAction α n}
    {events : List (QueueEvent α n)}
    (taken : (queueMachine α n).step q action = some (next, events)) :
    QueueStep q action next events := by
  -- Only a thread that is outside enters a call, and only one that waits is woken up.
  cases action with
  | push index body =>
    simp only [queueMachine, Option.ite_none_right_eq_some] at taken
    obtain ⟨outside, made⟩ := taken
    cases made
    exact .push index body outside
  | get index timeout =>
    simp only [queueMachine, Option.ite_none_right_eq_some] at taken
    obtain ⟨outside, made⟩ := taken
    obtain ⟨rfl, rfl⟩ := Prod.mk.inj (Option.some.inj made)
    exact .get index timeout outside
  | wake index timedOut =>
    cases stands : q.caller index with
    | outside => simp [queueMachine, stands] at taken
    | waiting timeout =>
      simp only [queueMachine, stands, Option.ite_none_right_eq_some] at taken
      obtain ⟨may, made⟩ := taken
      obtain ⟨rfl, rfl⟩ := Prod.mk.inj (Option.some.inj made)
      exact .wake index timedOut timeout stands may
  | stop index =>
    simp only [queueMachine, Option.ite_none_right_eq_some] at taken
    obtain ⟨outside, made⟩ := taken
    cases made
    exact .stop index outside

end Cevent
