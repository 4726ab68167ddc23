import Cevent.Library.Condition
import Cevent.Queue.Machine

/-! The blocking queue with its condition: who is asleep in `ce_queue_get`, and whom a signal wakes. -/

namespace Cevent

open Interleaving

/-- A call on the queue. -/
inductive QueueCall (α : Type) where
  | push (body : Option α)
  | get (timeout : Int)
  | stop
  deriving DecidableEq, Repr

/-- The first section of the call under the mutex. -/
def QueueCall.firstSection {α : Type} {n : Nat} (index : Fin n) : QueueCall α → QueueAction α n
  | .push body => .push index body
  | .get timeout => .get index timeout
  | .stop => .stop index

/-- The section ends with `pthread_cond_signal`. -/
def QueueCall.signals {α : Type} : QueueCall α → Bool
  | .push _ | .stop => true
  | .get _ => false

/-- A queue whose threads may be in a call before its mutex is locked, or asleep on its condition. -/
structure SleepQueue (α : Type) (n : Nat) where
  q : CeQueue α n
  cond : Condition (Fin n)
  /-- The call that a thread has entered, and has not locked the mutex for. -/
  entered : Fin n → Option (QueueCall α)

/-- A step of one thread. -/
inductive SleepAction (α : Type) (n : Nat) where
  | enter (index : Fin n) (call : QueueCall α)
  /-- The section of the call that was entered, and those whom its signal wakes. -/
  | lock (index : Fin n) (woken : Finset (Fin n))
  /-- A wait ends by its timeout, or for no reason. -/
  | rouse (index : Fin n)
  /-- The section behind a wait that has ended. -/
  | wake (index : Fin n) (timedOut : Bool)

namespace SleepQueue

variable {α : Type} {n : Nat}

/-- `ce_queue_new`. -/
def new (body : Fin n → Option α) : SleepQueue α n where
  q := CeQueue.new body
  cond := .idle
  entered := fun _ => none

/-- What a section leaves, when it leaves the queue like this. -/
def afterSection (s : SleepQueue α n) (index : Fin n) (call : QueueCall α)
    (woken : Finset (Fin n)) (q : CeQueue α n) : SleepQueue α n where
  q := q
  cond :=
    if call.signals then s.cond.rouse woken
    -- A thread that waits falls asleep as it unlocks the mutex.
    else if q.caller index = .outside then s.cond
    else s.cond.sleep index
  entered := Function.update s.entered index none

/-- The threads in a call that will still signal. -/
def signallers (s : SleepQueue α n) : Finset (Fin n) :=
  Finset.univ.filter fun index => (s.entered index).any (·.signals)

end SleepQueue

/-- The queue of before, with a condition that is woken up by signals, timeouts, and for no reason. -/
def sleepMachine (α : Type) (n : Nat) :
    Machine (SleepQueue α n) (SleepAction α n) (QueueEvent α n) where
  step s
    | .enter index call =>
      if s.q.caller index = .outside ∧ s.entered index = none then
        some ({ s with entered := Function.update s.entered index (some call) }, [])
      else none
    | .lock index woken =>
      match s.entered index with
      | none => none
      | some call =>
        -- The signal is sent with the mutex locked, so it belongs to the section.
        if call.signals = true → s.cond.Signals woken then
          ((queueMachine α n).step s.q (call.firstSection index)).map fun next =>
            (s.afterSection index call woken next.1, next.2)
        else none
    | .rouse index =>
      if s.cond index = .asleep then some ({ s with cond := s.cond.rouse {index} }, []) else none
    | .wake index timedOut =>
      if s.cond index = .roused then
        ((queueMachine α n).step s.q (.wake index timedOut)).map fun next =>
          ({ s with q := next.1, cond := s.cond.leave index }, next.2)
      else none

variable {α : Type} {n : Nat}

/-- The first section of `ce_queue_get` takes the first item, if there is one. -/
theorem ceQueueGet_queue (q : CeQueue α n) (index : Fin n) (timeout : Int) :
    (q.ceQueueGet index timeout).1.queue = q.queue.tail := by
  unfold CeQueue.ceQueueGet
  cases waiting : q.queue with
  | cons body others => simp [CeQueue.setBody, waiting, CeQueue.handOut, CeQueue.leave]
  -- Nothing is taken off an empty queue, whether the thread waits or returns.
  | nil =>
    simp only [CeQueue.setBody, waiting]
    split_ifs <;> simp [CeQueue.leave]

/-- It waits on an empty queue that is not stopped, unless the timeout is zero. -/
theorem ceQueueGet_caller (q : CeQueue α n) (index : Fin n) (timeout : Int) :
    (q.ceQueueGet index timeout).1.caller = Function.update q.caller index
      (if q.queue = [] ∧ q.stop = false ∧ timeout ≠ 0 then .waiting timeout else .outside) := by
  unfold CeQueue.ceQueueGet
  cases waiting : q.queue with
  | cons body others => simp [CeQueue.setBody, waiting, CeQueue.handOut, CeQueue.leave]
  | nil =>
    -- The loop is not entered on a stopped queue, and is left at once without a timeout.
    by_cases stopped : q.stop = true
    · simp [CeQueue.setBody, waiting, stopped, CeQueue.leave]
    · by_cases zero : timeout = 0
      · simp [CeQueue.setBody, waiting, stopped, zero, CeQueue.leave]
      · simp [CeQueue.setBody, waiting, stopped, zero]

/-- Behind its wait, `ce_queue_get` takes the first item of a queue that is not stopped. -/
theorem wakeUp_queue (q : CeQueue α n) (index : Fin n) (timedOut : Bool) :
    (q.wakeUp index timedOut).1.queue = if q.stop then q.queue else q.queue.tail := by
  unfold CeQueue.wakeUp
  split
  · rfl
  · cases waiting : q.queue with
    | cons body others => rfl
    | nil => exact waiting

/-- Then it returns. -/
theorem wakeUp_caller (q : CeQueue α n) (index : Fin n) (timedOut : Bool) :
    (q.wakeUp index timedOut).1.caller = Function.update q.caller index .outside := by
  unfold CeQueue.wakeUp
  split
  · rfl
  · split <;> rfl

/-- Which steps are taken, and what each of them leaves. -/
inductive SleepStep (s : SleepQueue α n) :
    SleepAction α n → SleepQueue α n → List (QueueEvent α n) → Prop where
  | enter (index : Fin n) (call : QueueCall α) (outside : s.q.caller index = .outside)
      (free : s.entered index = none) :
      SleepStep s (.enter index call)
        { s with entered := Function.update s.entered index (some call) } []
  | push (index : Fin n) (woken : Finset (Fin n)) (body : Option α)
      (entered : s.entered index = some (.push body)) (signals : s.cond.Signals woken)
      (outside : s.q.caller index = .outside) :
      SleepStep s (.lock index woken)
        { q := { s.q with queue := s.q.queue ++ [body] }
          cond := s.cond.rouse woken
          entered := Function.update s.entered index none } [.pushed body]
  | stop (index : Fin n) (woken : Finset (Fin n)) (entered : s.entered index = some .stop)
      (signals : s.cond.Signals woken) (outside : s.q.caller index = .outside) :
      SleepStep s (.lock index woken)
        { q := { s.q with stop := true }
          cond := s.cond.rouse woken
          entered := Function.update s.entered index none } [.stopped]
  /-- `ce_queue_get` returns without a wait. -/
  | get (index : Fin n) (woken : Finset (Fin n)) (timeout : Int)
      (entered : s.entered index = some (.get timeout)) (outside : s.q.caller index = .outside)
      (caller : (s.q.ceQueueGet index timeout).1.caller = s.q.caller) :
      SleepStep s (.lock index woken)
        { q := (s.q.ceQueueGet index timeout).1
          cond := s.cond
          entered := Function.update s.entered index none } (s.q.ceQueueGet index timeout).2
  /-- `ce_queue_get` waits. -/
  | sleep (index : Fin n) (woken : Finset (Fin n)) (timeout : Int)
      (entered : s.entered index = some (.get timeout)) (outside : s.q.caller index = .outside)
      (empty : s.q.queue = []) (running : s.q.stop = false)
      (caller : (s.q.ceQueueGet index timeout).1.caller =
        Function.update s.q.caller index (.waiting timeout)) :
      SleepStep s (.lock index woken)
        { q := (s.q.ceQueueGet index timeout).1
          cond := s.cond.sleep index
          entered := Function.update s.entered index none } (s.q.ceQueueGet index timeout).2
  | rouse (index : Fin n) (asleep : s.cond index = .asleep) :
      SleepStep s (.rouse index) { s with cond := s.cond.rouse {index} } []
  | wake (index : Fin n) (timedOut : Bool) (timeout : Int) (roused : s.cond index = .roused)
      (waits : s.q.caller index = .waiting timeout) (may : timedOut = true → 0 < timeout) :
      SleepStep s (.wake index timedOut)
        { s with q := (s.q.wakeUp index timedOut).1, cond := s.cond.leave index }
        (s.q.wakeUp index timedOut).2

/-- The section of a call that was entered is one of these. -/
theorem SleepStep.of_lock {s : SleepQueue α n} {index : Fin n} {woken : Finset (Fin n)}
    {call : QueueCall α} {next : CeQueue α n} {events : List (QueueEvent α n)}
    (entered : s.entered index = some call)
    (signals : call.signals = true → s.cond.Signals woken)
    (taken : (queueMachine α n).step s.q (call.firstSection index) = some (next, events)) :
    SleepStep s (.lock index woken) (s.afterSection index call woken next) events := by
  -- The section of each call is the step of the queue's own machine.
  cases call with
  | push body =>
    cases queueMachine_step taken with
    | push _ _ outside => exact .push index woken body entered (signals rfl) outside
  | stop =>
    cases queueMachine_step taken with
    | stop _ outside => exact .stop index woken entered (signals rfl) outside
  | get timeout =>
    cases queueMachine_step taken with
    | get _ _ outside =>
      have caller := ceQueueGet_caller s.q index timeout
      simp only [SleepQueue.afterSection, QueueCall.signals, Bool.false_eq_true, if_false]
      -- Whether the thread falls asleep is told by where the section leaves it.
      by_cases waits : s.q.queue = [] ∧ s.q.stop = false ∧ timeout ≠ 0
      · rw [if_pos waits] at caller
        have inside : (s.q.ceQueueGet index timeout).1.caller index ≠ .outside := by
          rw [caller, Function.update_self]
          simp
        rw [if_neg inside]
        exact .sleep index woken timeout entered outside waits.1 waits.2.1 caller
      · rw [if_neg waits, ← outside, Function.update_eq_self] at caller
        rw [if_pos (by rw [caller, outside])]
        exact .get index woken timeout entered outside caller

/-- A step of the machine is one of these. -/
theorem sleepMachine_step {s next : SleepQueue α n} {action : SleepAction α n}
    {events : List (QueueEvent α n)}
    (taken : (sleepMachine α n).step s action = some (next, events)) :
    SleepStep s action next events := by
  cases action with
  | enter index call =>
    simp only [sleepMachine, Option.ite_none_right_eq_some] at taken
    obtain ⟨⟨outside, free⟩, made⟩ := taken
    cases made
    exact .enter index call outside free
  | lock index woken =>
    simp only [sleepMachine] at taken
    split at taken
    · cases taken
    · rename_i call entered
      split at taken
      · rename_i signals
        obtain ⟨⟨q, shown⟩, stepped, made⟩ := Option.map_eq_some_iff.mp taken
        obtain ⟨rfl, rfl⟩ := Prod.mk.inj made
        exact .of_lock entered signals stepped
      · cases taken
  | rouse index =>
    simp only [sleepMachine, Option.ite_none_right_eq_some] at taken
    obtain ⟨asleep, made⟩ := taken
    cases made
    exact .rouse index asleep
  | wake index timedOut =>
    simp only [sleepMachine, Option.ite_none_right_eq_some] at taken
    obtain ⟨roused, made⟩ := taken
    obtain ⟨⟨q, shown⟩, stepped, same⟩ := Option.map_eq_some_iff.mp made
    obtain ⟨rfl, rfl⟩ := Prod.mk.inj same
    -- The timeout of the wait that ends tells whether it may be timed out.
    cases queueMachine_step stepped with
    | wake _ _ timeout waits may => exact .wake index timedOut timeout roused waits may

/-- Without its condition in sight, the queue runs as the machine of its sections does. -/
theorem sleepMachine_projects (body : Fin n → Option α) {actions : List (SleepAction α n)}
    {last : SleepQueue α n} {trace : List (QueueEvent α n)}
    (ran : (sleepMachine α n).exec (SleepQueue.new body) actions = some (last, trace)) :
    ∃ sections, (queueMachine α n).exec (CeQueue.new body) sections = some (last.q, trace) := by
  refine (sleepMachine α n).exec_project (·.q) ?_ ran
  intro s action next events taken
  -- Only entering a call and the end of a wait are no sections.
  cases sleepMachine_step taken with
  | enter | rouse => exact .inr ⟨rfl, rfl⟩
  | push index woken body entered signals outside =>
    exact .inl ⟨.push index body, by simp [queueMachine, outside]⟩
  | stop index woken entered signals outside =>
    exact .inl ⟨.stop index, by simp [queueMachine, outside]⟩
  | get index woken timeout entered outside | sleep index woken timeout entered outside =>
    exact .inl ⟨.get index timeout, by simp [queueMachine, outside]⟩
  | wake index timedOut timeout roused waits may =>
    refine .inl ⟨.wake index timedOut, ?_⟩
    simp only [queueMachine, waits]
    rw [if_pos may]

/-- A thread is away from the condition when it is outside, and outside when it has only entered a call. -/
structure SleepInv (s : SleepQueue α n) : Prop where
  away : ∀ index, s.cond index = .away ↔ s.q.caller index = .outside
  outside : ∀ index, s.entered index ≠ none → s.q.caller index = .outside

namespace SleepInv

/-- At first all threads are outside. -/
theorem new (body : Fin n → Option α) : SleepInv (SleepQueue.new body) where
  away := fun _ => iff_of_true rfl rfl
  outside := fun _ _ => rfl

variable {s : SleepQueue α n} (inv : SleepInv s)

include inv

/-- A signal of a thread that is outside keeps every thread where it is. -/
theorem signalled {index : Fin n} {woken : Finset (Fin n)} {q : CeQueue α n}
    (within : woken ⊆ s.cond.sleepers) (caller : q.caller = s.q.caller) :
    SleepInv { q := q, cond := s.cond.rouse woken, entered := Function.update s.entered index none } where
  away other := by rw [Condition.rouse_eq_away within, caller, inv.away]
  outside other entered := by
    rw [caller]
    refine inv.outside other ?_
    -- The thread that signals has left its call.
    by_cases same : other = index
    · simp [same] at entered
    · simpa [same] using entered

/-- Every step keeps it. -/
theorem step {action : SleepAction α n} {next : SleepQueue α n} {events : List (QueueEvent α n)}
    (taken : (sleepMachine α n).step s action = some (next, events)) : SleepInv next := by
  cases sleepMachine_step taken with
  | enter index call outside free =>
    refine ⟨inv.away, ?_⟩
    intro other entered
    by_cases same : other = index
    · rw [same, outside]
    · exact inv.outside other (by simpa [same] using entered)
  | push index woken body entered signals outside => exact inv.signalled signals.within rfl
  | stop index woken entered signals outside => exact inv.signalled signals.within rfl
  | get index woken timeout entered outside caller =>
    refine ⟨fun other => by rw [caller, inv.away], ?_⟩
    intro other entered'
    rw [caller]
    by_cases same : other = index
    · rw [same, outside]
    · exact inv.outside other (by simpa [same] using entered')
  -- The thread that falls asleep is inside from now on, and all others are as they were.
  | sleep index woken timeout entered outside empty running caller =>
    refine ⟨?_, ?_⟩
    · intro other
      rw [caller]
      by_cases same : other = index
      · simp [same, Condition.sleep]
      · simp [same, Condition.sleep, inv.away]
    · intro other entered'
      rw [caller]
      by_cases same : other = index
      · simp [same] at entered'
      · simpa [same] using inv.outside other (by simpa [same] using entered')
  | rouse index asleep =>
    refine ⟨?_, inv.outside⟩
    intro other
    rw [Condition.rouse_eq_away (by simpa using asleep), inv.away]
  -- It leaves the condition and the call in one section.
  | wake index timedOut timeout roused waits may =>
    refine ⟨?_, ?_⟩
    · intro other
      rw [wakeUp_caller]
      by_cases same : other = index
      · simp [same, Condition.leave]
      · simp [same, Condition.leave, inv.away]
    · intro other entered
      rw [wakeUp_caller]
      by_cases same : other = index
      · simp [same]
      · simpa [same] using inv.outside other entered

end SleepInv

end Cevent
