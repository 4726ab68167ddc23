import Cevent.Library.Condition
import Cevent.Pool.Places

/-! The pool with its condition: which of its threads are asleep in `ce_tp_routine`, and what wakes them. -/

namespace Cevent

open Interleaving

/-- A pool whose threads may be asleep on its condition, under any number of other threads. -/
structure SleepPool (n : Nat) where
  tp : CeTp n
  cond : Condition (Fin n)
  /-- The registrations by other threads that have passed their checks, by their `complete_cb`. -/
  registering : List Bool

/-- A step of one party. -/
inductive SleepPoolAction (n : Nat) where
  /-- Another thread enters `ce_tp_worker_register`, and comes through its checks or not. -/
  | registers (arg : WorkerArg)
  /-- Such a registration inserts its worker. -/
  | inserts (completeCb : Bool)
  /-- The next step of `ce_tp_routine` in one thread. -/
  | routine (index : Fin n)
  /-- The wait of a thread ends for no reason. -/
  | rouse (index : Fin n)
  | callbackRegisters (index : Fin n) (arg : WorkerArg)
  | callbackReturns (index : Fin n)
  /-- `ce_tp_worker_free` of a worker that is still queued. -/
  | free (worker : CeTpWorker)
  /-- `ce_tp_destroy` is called. -/
  | destroy
  /-- The next step of `ce_tp_destroy`. -/
  | destroyer

namespace SleepPool

variable {n : Nat}

/-- `ce_tp_create`, once its threads have started. -/
def create (n : Nat) : SleepPool n where
  tp := CeTp.create n
  cond := .idle
  registering := []

/-- How the threads stand to the condition behind a step of `ce_tp_routine`. -/
def condAfter (s : SleepPool n) (index : Fin n) (next : CeTp n) : Condition (Fin n) :=
  match s.tp.thread index with
  -- A callback inserts a worker, and broadcasts.
  | .calling _ _ (some _) => s.cond.broadcast
  | _ => if next.thread index = .waiting then s.cond.sleep index else s.cond.leave index

/-- The next step of `ce_tp_routine`, which is no step of a thread that is asleep. -/
def routine (s : SleepPool n) (index : Fin n) : Option (SleepPool n × List PoolEvent) :=
  if s.tp.thread index = .waiting ∧ s.cond index ≠ .roused then none
  else (s.tp.ceTpRoutine index).map fun next =>
    ({ s with tp := next.1, cond := s.condAfter index next.1 }, next.2)

/-- The next step of `ce_tp_destroy`, which broadcasts when it has set `abort`. -/
def ceTpDestroy (s : SleepPool n) : Option (SleepPool n × List PoolEvent) :=
  s.tp.ceTpDestroy.map fun next =>
    ({ s with
        tp := next.1
        cond := if s.tp.destroyer = .aborting then s.cond.broadcast else s.cond }, next.2)

/-- A thread is blocked in `pthread_cond_wait`, and no wake-up was delivered to it. -/
def Asleep (s : SleepPool n) (index : Fin n) : Prop :=
  s.tp.thread index = .waiting ∧ s.cond index ≠ .roused

end SleepPool

/-- A pool whose threads are woken up by broadcasts, and for no reason, until it is destroyed. -/
def sleepPoolMachine (n : Nat) (type : CeTpKill) :
    Machine (SleepPool n) (SleepPoolAction n) PoolEvent where
  step s
    | .registers arg =>
      -- The pool is freed when `ce_tp_destroy` returns.
      if s.tp.destroyer = .returned then none
      else if s.tp.registerPasses arg then
        some ({ s with registering := s.registering ++ [arg.completeCb] }, [])
      else some (s, [])
    | .inserts completeCb =>
      if s.tp.destroyer ≠ .returned ∧ completeCb ∈ s.registering then
        let (tp, events) := s.tp.insert completeCb
        some ({ tp := tp, cond := s.cond.broadcast,
                registering := s.registering.erase completeCb }, events)
      else none
    | .routine index => s.routine index
    | .rouse index =>
      if s.tp.thread index = .waiting then some ({ s with cond := s.cond.rouse {index} }, [])
      else none
    | .callbackRegisters index arg =>
      (s.tp.callbackRegisters index arg).map fun next => ({ s with tp := next.1 }, next.2)
    | .callbackReturns index =>
      (s.tp.callbackReturns index).map fun next => ({ s with tp := next.1 }, next.2)
    | .free worker =>
      -- The search goes through the queue with the mutex locked.
      if worker ∈ s.tp.pool.workerQueue then
        some ({ s with tp := { s.tp with pool := { s.tp.pool with
          workerQueue := s.tp.pool.workerQueue.erase worker } } }, [])
      else none
    | .destroy =>
      if s.tp.destroyer = .notCalled then
        some ({ s with tp := { s.tp with
          destroyer := if type = .wait then .draining else .aborting } }, [])
      else none
    | .destroyer => s.ceTpDestroy

/--
No thread sleeps past work or shutdown.

In particular, `pthread_join` in `ce_tp_destroy` waits for no thread that is asleep.
-/
structure NoneSleepsPast {n : Nat} (s : SleepPool n) : Prop where
  asleep : ∀ index, s.Asleep index → s.tp.pool.workerQueue = [] ∧ s.tp.pool.abort = false
  joins : ∀ index, s.tp.destroyer = .joining index → ∀ thread, ¬ s.Asleep thread

/-- What carries this along a run. -/
structure SleepPoolInv {n : Nat} (s : SleepPool n) : Prop where
  asleep : ∀ index, s.Asleep index → s.tp.pool.workerQueue = [] ∧ s.tp.pool.abort = false
  waits : ∀ index, s.tp.thread index = .waiting → s.cond index ≠ .away
  aborted : s.tp.destroyer.aborted = true → s.tp.pool.abort = true

/-- What a step of `ce_tp_routine` leaves, of what a sleeping thread depends on. -/
structure RoutineLeaves {n : Nat} (tp : CeTp n) (index : Fin n) (next : CeTp n) : Prop where
  destroyer : next.destroyer = tp.destroyer
  abort : next.pool.abort = tp.pool.abort
  others : ∀ other, other ≠ index → next.thread other = tp.thread other
  /-- A thread that goes to sleep has seen nothing to do. -/
  sleeps : next.thread index = .waiting → next.pool.workerQueue = [] ∧ next.pool.abort = false
  /-- Only a callback that registers a worker puts one into an empty queue. -/
  queue : (∀ callback worker completeCb,
      tp.thread index ≠ .calling callback worker (some completeCb)) →
    tp.pool.workerQueue = [] → next.pool.workerQueue = []

/-- The section of `ce_tp_routine` under the mutex leaves that. -/
theorem takeFirst_leaves {n : Nat} (tp : CeTp n) (index : Fin n) :
    RoutineLeaves tp index (tp.takeFirst index).1 := by
  unfold CeTp.takeFirst
  cases queue : tp.pool.workerQueue with
  | nil =>
    refine ⟨rfl, rfl, ?_, ?_, fun _ _ => queue⟩
    · intro other apart
      exact Function.update_of_ne apart ..
    · -- With the mutex locked the thread has found no worker, and no abort.
      intro waits
      cases aborted : tp.pool.abort with
      | true => simp [CeTp.goto, aborted] at waits
      | false => exact ⟨queue, aborted⟩
  | cons worker others =>
    refine ⟨rfl, rfl, ?_, ?_, ?_⟩
    · intro other apart
      exact Function.update_of_ne apart ..
    · intro waits
      simp [CeTp.goto] at waits
    · intro _ empty
      rw [queue] at empty
      cases empty

/-- A thread that goes to a place where it does not wait leaves that. -/
theorem goto_leaves {n : Nat} (tp : CeTp n) (index : Fin n) {pc : RoutinePc} (awake : pc ≠ .waiting) :
    RoutineLeaves tp index (tp.goto index pc) where
  destroyer := rfl
  abort := rfl
  others other apart := Function.update_of_ne apart ..
  sleeps waits := by
    rw [CeTp.goto_thread, if_pos rfl] at waits
    exact absurd waits awake
  queue _ empty := empty

/-- So does every step of `ce_tp_routine`. -/
theorem ceTpRoutine_leaves {n : Nat} {tp next : CeTp n} {index : Fin n} {events : List PoolEvent}
    (taken : tp.ceTpRoutine index = some (next, events)) : RoutineLeaves tp index next := by
  unfold CeTp.ceTpRoutine at taken
  cases place : tp.thread index with
  | loopTest =>
    simp only [place, Option.some.injEq, Prod.mk.injEq] at taken
    obtain ⟨rfl, -⟩ := taken
    refine goto_leaves tp index ?_
    split <;> simp
  | lock | waiting =>
    simp only [place, Option.some.injEq] at taken
    have leaves := takeFirst_leaves tp index
    rwa [taken] at leaves
  | taken worker =>
    simp only [place, Option.some.injEq, Prod.mk.injEq] at taken
    obtain ⟨rfl, -⟩ := taken
    exact goto_leaves tp index (by simp)
  | calling callback worker registering =>
    cases registering with
    | none => simp [place] at taken
    | some completeCb =>
      simp only [place, Option.some.injEq, Prod.mk.injEq] at taken
      obtain ⟨rfl, -⟩ := taken
      have leaves : RoutineLeaves (tp.insert completeCb).1 index
          ((tp.insert completeCb).1.goto index (.calling callback worker none)) :=
        goto_leaves _ index (by simp)
      exact ⟨leaves.destroyer, leaves.abort, leaves.others, leaves.sleeps,
        fun calm => absurd place (calm callback worker completeCb)⟩
  -- Whether there is a `complete_cb`, the thread goes on without the queue.
  | processed worker =>
    simp only [place] at taken
    split at taken
    · cases taken
      exact goto_leaves tp index (by simp)
    · cases taken
      exact goto_leaves tp index (by simp)
  -- Taking the worker out of an empty queue leaves it empty.
  | freeing worker =>
    simp only [place, Option.some.injEq, Prod.mk.injEq] at taken
    obtain ⟨rfl, -⟩ := taken
    refine ⟨rfl, rfl, ?_, ?_, ?_⟩
    · intro other apart
      exact Function.update_of_ne apart ..
    · intro waits
      simp [CeTp.goto] at waits
    · intro _ empty
      simp [CeTp.goto, empty]
  | exited => simp [place] at taken

namespace SleepPoolInv

variable {n : Nat} {s : SleepPool n}

/-- At first no thread waits. -/
theorem create (n : Nat) : SleepPoolInv (SleepPool.create n) where
  asleep index asleep := by cases asleep.1
  waits index waiting := by cases waiting
  aborted called := by cases called

/-- While the io of threads is as before, a queue that is no fuller keeps it. -/
theorem still (inv : SleepPoolInv s) {tp : CeTp n} {registering : List Bool}
    (waiting : ∀ index, tp.thread index = .waiting → s.tp.thread index = .waiting)
    (queue : s.tp.pool.workerQueue = [] → tp.pool.workerQueue = [])
    (abort : tp.pool.abort = s.tp.pool.abort)
    (destroyer : tp.destroyer.aborted = true → s.tp.destroyer.aborted = true) :
    SleepPoolInv { tp := tp, cond := s.cond, registering := registering } where
  asleep index asleep := by
    have before := inv.asleep index ⟨waiting index asleep.1, asleep.2⟩
    exact ⟨queue before.1, abort.trans before.2⟩
  waits index waits := inv.waits index (waiting index waits)
  aborted called := abort.trans (inv.aborted (destroyer called))

/-- After a broadcast no thread is asleep. -/
theorem broadcast (inv : SleepPoolInv s) {tp : CeTp n} {registering : List Bool}
    (waiting : ∀ index, tp.thread index = .waiting → s.tp.thread index = .waiting)
    (aborted : tp.destroyer.aborted = true → tp.pool.abort = true) :
    SleepPoolInv { tp := tp, cond := s.cond.broadcast, registering := registering } where
  asleep index asleep :=
    absurd (Condition.broadcast_eq_roused (inv.waits index (waiting index asleep.1))) asleep.2
  waits index waits := by
    -- A wait that has ended is still no longer away.
    show s.cond.broadcast index ≠ .away
    rw [Condition.broadcast_eq_roused (inv.waits index (waiting index waits))]
    simp
  aborted := aborted

/-- A thread that moves on keeps it, when it has seen nothing to do before it sleeps. -/
theorem moved (inv : SleepPoolInv s) {index : Fin n} {tp : CeTp n} {cond : Condition (Fin n)}
    {registering : List Bool} (leaves : RoutineLeaves s.tp index tp)
    (queue : s.tp.pool.workerQueue = [] → tp.pool.workerQueue = [])
    (others : ∀ other, other ≠ index → cond other = s.cond other)
    (own : tp.thread index = .waiting → cond index ≠ .away) :
    SleepPoolInv { tp := tp, cond := cond, registering := registering } where
  asleep other asleep := by
    obtain ⟨waits, notRoused⟩ : tp.thread other = .waiting ∧ cond other ≠ .roused := asleep
    by_cases same : other = index
    · subst same
      exact leaves.sleeps waits
    · -- The others stand as they stood before.
      rw [leaves.others other same] at waits
      rw [others other same] at notRoused
      have idle := inv.asleep other ⟨waits, notRoused⟩
      exact ⟨queue idle.1, leaves.abort.trans idle.2⟩
  waits other waits := by
    have waits : tp.thread other = .waiting := waits
    show cond other ≠ .away
    by_cases same : other = index
    · subst same
      exact own waits
    · rw [leaves.others other same] at waits
      rw [others other same]
      exact inv.waits other waits
  aborted called := by
    have called : tp.destroyer.aborted = true := called
    rw [leaves.destroyer] at called
    exact leaves.abort.trans (inv.aborted called)

/-- A step of a thread that is awake keeps it. -/
theorem routine (inv : SleepPoolInv s) {index : Fin n} {next : SleepPool n}
    {events : List PoolEvent} (taken : s.routine index = some (next, events)) :
    SleepPoolInv next := by
  unfold SleepPool.routine at taken
  split at taken
  · cases taken
  · rename_i awake
    obtain ⟨⟨tp, shown⟩, stepped, made⟩ := Option.map_eq_some_iff.mp taken
    obtain ⟨rfl, -⟩ := Prod.mk.inj made
    have leaves := ceTpRoutine_leaves stepped
    by_cases inserts : ∃ callback worker completeCb,
        s.tp.thread index = .calling callback worker (some completeCb)
    · -- The thread itself is awake, and its broadcast wakes the others.
      -- It goes on in its callback, so it is not one of those who wait.
      obtain ⟨callback, worker, completeCb, place⟩ := inserts
      have cond : s.condAfter index tp = s.cond.broadcast := by
        simp only [SleepPool.condAfter, place]
      rw [cond]
      refine inv.broadcast ?_ ?_
      · intro other waits
        by_cases same : other = index
        · subst same
          simp only [CeTp.ceTpRoutine, place, Option.some.injEq, Prod.mk.injEq] at stepped
          rw [← stepped.1, CeTp.goto_thread, if_pos rfl] at waits
          cases waits
        · rwa [leaves.others other same] at waits
      · rw [leaves.destroyer, leaves.abort]
        exact inv.aborted
    · have calm : ∀ callback worker completeCb,
          s.tp.thread index ≠ .calling callback worker (some completeCb) := by
        intro callback worker completeCb place
        exact inserts ⟨callback, worker, completeCb, place⟩
      have cond : s.condAfter index tp =
          if tp.thread index = .waiting then s.cond.sleep index else s.cond.leave index := by
        unfold SleepPool.condAfter
        split
        · rename_i callback worker completeCb place
          exact absurd place (calm callback worker completeCb)
        · rfl
      rw [cond]
      refine inv.moved leaves (leaves.queue calm) ?_ ?_
      · intro other apart
        split
        · exact Function.update_of_ne apart ..
        · exact Function.update_of_ne apart ..
      · intro waits
        rw [if_pos waits]
        simp [Condition.sleep]

/-- So does a step of `ce_tp_destroy`. -/
theorem ceTpDestroy (inv : SleepPoolInv s) {next : SleepPool n} {events : List PoolEvent}
    (taken : s.ceTpDestroy = some (next, events)) : SleepPoolInv next := by
  obtain ⟨⟨tp, shown⟩, stepped, made⟩ := Option.map_eq_some_iff.mp taken
  obtain ⟨rfl, -⟩ := Prod.mk.inj made
  unfold CeTp.ceTpDestroy at stepped
  cases stage : s.tp.destroyer with
  | notCalled | returned => simp [stage] at stepped
  | draining =>
    simp only [stage, Option.some.injEq, Prod.mk.injEq] at stepped
    obtain ⟨rfl, -⟩ := stepped
    refine inv.still (fun _ waits => waits) (fun empty => empty) rfl ?_
    intro called
    split at called <;> cases called
  -- The broadcast is sent behind the store of `abort`.
  | aborting =>
    simp only [stage, Option.some.injEq, Prod.mk.injEq] at stepped
    obtain ⟨rfl, -⟩ := stepped
    exact inv.broadcast (fun _ waits => waits) (fun _ => rfl)
  | joining index =>
    have called : s.tp.destroyer.aborted = true := by rw [stage]; rfl
    simp only [stage] at stepped
    split at stepped
    · split at stepped
      · cases stepped
        exact inv.still (fun _ waits => waits) (fun empty => empty) rfl (fun _ => called)
      · cases stepped
    · cases stepped
      exact inv.still (fun _ waits => waits) (fun empty => empty) rfl (fun _ => called)
  -- Workers are only taken out of the queue here.
  | cleanup =>
    have called : s.tp.destroyer.aborted = true := by rw [stage]; rfl
    simp only [stage] at stepped
    split at stepped
    · cases stepped
      exact inv.still (fun _ waits => waits) (fun empty => empty) rfl (fun _ => called)
    · rename_i worker others first
      cases stepped
      refine inv.still (fun _ waits => waits) ?_ rfl (fun _ => called)
      intro empty
      rw [first] at empty
      cases empty

/-- A callback that registers or returns keeps it. -/
theorem callback (inv : SleepPoolInv s) {index : Fin n} {tp : CeTp n} {registering : List Bool}
    {pc : RoutinePc} (awake : pc ≠ .waiting) (next : tp = s.tp.goto index pc) :
    SleepPoolInv { tp := tp, cond := s.cond, registering := registering } := by
  subst next
  refine inv.still ?_ (fun empty => empty) rfl (fun called => called)
  intro other waits
  rw [CeTp.goto_thread] at waits
  split at waits
  · exact absurd waits awake
  · exact waits

/-- Every step keeps it. -/
theorem step (inv : SleepPoolInv s) {type : CeTpKill} {action : SleepPoolAction n}
    {next : SleepPool n} {events : List PoolEvent}
    (taken : (sleepPoolMachine n type).step s action = some (next, events)) :
    SleepPoolInv next := by
  cases action with
  | registers arg =>
    simp only [sleepPoolMachine] at taken
    split at taken
    · cases taken
    · split at taken
      · cases taken
        exact inv.still (fun _ waits => waits) (fun empty => empty) rfl (fun called => called)
      · cases taken
        exact inv
  | inserts completeCb =>
    simp only [sleepPoolMachine, Option.ite_none_right_eq_some] at taken
    obtain ⟨-, made⟩ := taken
    cases made
    -- Whoever was asleep is woken up for the new worker.
    exact inv.broadcast (fun _ waits => waits) inv.aborted
  | routine index => exact inv.routine taken
  | rouse index =>
    simp only [sleepPoolMachine, Option.ite_none_right_eq_some] at taken
    obtain ⟨waiting, made⟩ := taken
    cases made
    refine ⟨?_, ?_, inv.aborted⟩
    · intro other asleep
      have apart : other ≠ index := by
        rintro rfl
        exact asleep.2 (by simp [Condition.rouse])
      refine inv.asleep other ⟨asleep.1, ?_⟩
      simpa [Condition.rouse, apart] using asleep.2
    · intro other waits
      by_cases same : other = index
      · simp [Condition.rouse, same]
      · simpa [Condition.rouse, same] using inv.waits other waits
  | callbackRegisters index arg =>
    obtain ⟨⟨tp, shown⟩, stepped, made⟩ := Option.map_eq_some_iff.mp taken
    obtain ⟨rfl, -⟩ := Prod.mk.inj made
    unfold CeTp.callbackRegisters at stepped
    split at stepped
    · split at stepped
      · cases stepped
        exact inv.callback (by simp) rfl
      · cases stepped
        exact inv
    · cases stepped
  | callbackReturns index =>
    obtain ⟨⟨tp, shown⟩, stepped, made⟩ := Option.map_eq_some_iff.mp taken
    obtain ⟨rfl, -⟩ := Prod.mk.inj made
    unfold CeTp.callbackReturns at stepped
    split at stepped
    · cases stepped
      exact inv.callback (by simp) rfl
    · cases stepped
      exact inv.callback (by simp) rfl
    · cases stepped
  -- A queue that loses a worker has none it did not have.
  | free worker =>
    simp only [sleepPoolMachine, Option.ite_none_right_eq_some] at taken
    obtain ⟨-, made⟩ := taken
    cases made
    refine inv.still (fun _ waits => waits) ?_ rfl (fun called => called)
    intro empty
    simp [empty]
  | destroy =>
    simp only [sleepPoolMachine, Option.ite_none_right_eq_some] at taken
    obtain ⟨-, made⟩ := taken
    cases made
    refine inv.still (fun _ waits => waits) (fun empty => empty) rfl ?_
    intro called
    dsimp only at called
    split at called <;> cases called
  | destroyer => exact inv.ceTpDestroy taken

end SleepPoolInv

/--
No pool thread sleeps past work or shutdown.

It holds in every state that a run reaches, for any number of threads and either way to destroy the
pool, with registrations by any threads at any time.
-/
theorem pool_none_sleeps_past (n : Nat) (type : CeTpKill) {actions : List (SleepPoolAction n)}
    {last : SleepPool n} {trace : List PoolEvent}
    (ran : (sleepPoolMachine n type).exec (SleepPool.create n) actions = some (last, trace)) :
    NoneSleepsPast last := by
  have inv : SleepPoolInv last := (sleepPoolMachine n type).exec_invariant (fun s _ => SleepPoolInv s)
    (SleepPoolInv.create n) (fun s before action next events inv taken => inv.step taken) ran
  refine ⟨inv.asleep, ?_⟩
  intro index joining thread asleep
  -- Before it joins a thread, the destruction has set `abort`.
  have called : last.tp.destroyer.aborted = true := by rw [joining]; rfl
  have running := (inv.asleep thread asleep).2
  rw [inv.aborted called] at running
  cases running

/-- Both threads sleep, a worker is registered and cancelled, and the pool is destroyed. -/
def sleepAndDestroy {n : Nat} (first second : Fin n) : List (SleepPoolAction n) :=
  [.routine first, .routine first, .routine second, .routine second,
    .registers { processCb := true, completeCb := false }, .inserts false,
    .free { id := 0, completeCb := false }, .routine first, .destroy, .destroyer, .destroyer,
    .routine first, .routine second, .destroyer]

/-- Both are awake again when they are joined. -/
theorem pool_none_sleeps_past_two_threads : ∃ last trace,
    (sleepPoolMachine 2 .wait).exec (SleepPool.create 2) (sleepAndDestroy 0 1) =
      some (last, trace) ∧ NoneSleepsPast last :=
  ⟨_, _, rfl, pool_none_sleeps_past 2 .wait
    (show (sleepPoolMachine 2 .wait).exec (SleepPool.create 2) (sleepAndDestroy 0 1) = _ from rfl)⟩

end Cevent
