import Cevent.Library.History
import Cevent.Queue.Machine

/-! The return codes of `ce_queue_get`, and when they tell the truth. -/

namespace Cevent

open Interleaving

variable {α : Type} {n : Nat}

/--
A code agrees with what happened before the call returned.

-1 means that the queue was stopped, and on a stopped queue a call hands out an item or returns -1.
-/
def CodeAgrees (before : List (QueueEvent α n)) : QueueEvent α n → Prop
  -- The events before the return tell whether `ce_queue_stop` was called by then.
  | .got _ ret _ => (ret = -1 → .stopped ∈ before) ∧ (.stopped ∈ before → ret = 1 ∨ ret = -1)
  | .pushed _ | .stopped => True

/-- A section returns 0 only for a timeout of 0, or when its wait has ended by the timeout. -/
def ZeroOnTimeout (q : CeQueue α n) (action : QueueAction α n) : Prop :=
  ∀ next events, (queueMachine α n).step q action = some (next, events) →
    ∀ index body, .got index 0 body ∈ events → action = .get index 0 ∨ action = .wake index true

/-- Over a run, every return code of `ce_queue_get` says why the call has returned. -/
structure ReturnCodesTrue (start : CeQueue α n) (actions : List (QueueAction α n))
    (trace : List (QueueEvent α n)) : Prop where
  agree : EachFits CodeAgrees trace
  timedOut : (queueMachine α n).Meets ZeroOnTimeout start actions

/--
A section does not come to an empty queue in one of the two ways that the source takes for another.

The call is not entered on a stopped queue that is empty. A wait on a queue that is not stopped does
not end with the queue empty, except by its timeout.
-/
def EndsPlainly (q : CeQueue α n) : QueueAction α n → Prop
  | .get _ _ => q.stop = true → q.queue ≠ []
  -- An empty queue after any other end of the wait is taken for a stop.
  | .wake _ timedOut => q.stop = false → q.queue = [] → timedOut = true
  | .push _ _ | .stop _ => True

/-- The first section of `ce_queue_get` returns 1 with an item, and else 0 if it returns at all. -/
theorem ceQueueGet_events (q : CeQueue α n) (index : Fin n) (timeout : Int) :
    (q.ceQueueGet index timeout).2 =
      match q.queue with
      | body :: _ => [.got index 1 body]
      | [] => if q.stop = true ∨ timeout = 0 then [.got index 0 none] else [] := by
  unfold CeQueue.ceQueueGet
  cases waiting : q.queue with
  | cons body others =>
    simp [waiting, CeQueue.setBody, CeQueue.handOut, CeQueue.leave]
  | nil =>
    -- With nothing to hand out, the stop flag is looked at before the timeout.
    by_cases stopped : q.stop = true
    · simp [waiting, stopped, CeQueue.setBody, CeQueue.leave]
    · by_cases zero : timeout = 0
      · simp [waiting, stopped, zero, CeQueue.setBody, CeQueue.leave]
      · simp [waiting, stopped, zero, CeQueue.setBody]

/-- The section behind the wait always returns: -1 when stopped, 1 with an item, and else a guess. -/
theorem wakeUp_events (q : CeQueue α n) (index : Fin n) (timedOut : Bool) :
    (q.wakeUp index timedOut).2 =
      if q.stop = true then [.got index (-1) none]
      else
        match q.queue with
        | body :: _ => [.got index 1 body]
        | [] => [.got index (if timedOut then 0 else -1) none] := by
  unfold CeQueue.wakeUp
  -- The flag comes first, then the queue, and the code of the wait last.
  by_cases stopped : q.stop = true
  · simp [stopped, CeQueue.setBody, CeQueue.leave]
  · cases waiting : q.queue with
    | cons body others => simp [stopped, CeQueue.setBody, CeQueue.handOut, CeQueue.leave]
    | nil => simp [stopped, CeQueue.setBody, CeQueue.leave]

/-- The stop flag is set just when `ce_queue_stop` was called. -/
def StopNoted (q : CeQueue α n) (trace : List (QueueEvent α n)) : Prop :=
  q.stop = true ↔ .stopped ∈ trace

/-- A section that keeps the stop flag and shows no stop keeps the note of it. -/
theorem StopNoted.keep {q next : CeQueue α n} {trace events : List (QueueEvent α n)}
    (noted : StopNoted q trace) (same : next.stop = q.stop) (silent : .stopped ∉ events) :
    StopNoted next (trace ++ events) := by
  rw [StopNoted, same, List.mem_append, or_iff_left silent]
  exact noted

/-- The first section of `ce_queue_get` does not touch the stop flag, and shows no stop. -/
theorem ceQueueGet_stop (q : CeQueue α n) (index : Fin n) (timeout : Int) :
    (q.ceQueueGet index timeout).1.stop = q.stop ∧ .stopped ∉ (q.ceQueueGet index timeout).2 := by
  constructor
  · unfold CeQueue.ceQueueGet
    dsimp only
    split
    · rfl
    · split_ifs <;> rfl
  · -- The events are returns, which are no stops.
    rw [ceQueueGet_events]
    split
    · simp
    · split_ifs <;> simp

/-- Neither does the section behind the wait. -/
theorem wakeUp_stop (q : CeQueue α n) (index : Fin n) (timedOut : Bool) :
    (q.wakeUp index timedOut).1.stop = q.stop ∧ .stopped ∉ (q.wakeUp index timedOut).2 := by
  constructor
  · unfold CeQueue.wakeUp
    split
    · rfl
    · split <;> rfl
  · rw [wakeUp_events]
    split
    · simp
    · split <;> simp

/-- A code that is given away in a section agrees with the flag just when the section ends plainly. -/
theorem codeAgrees_iff_of_get {q : CeQueue α n} {trace : List (QueueEvent α n)}
    (noted : StopNoted q trace) (index : Fin n) (timeout : Int) :
    EachFits CodeAgrees (trace ++ (q.ceQueueGet index timeout).2) ↔
      EachFits CodeAgrees trace ∧ EndsPlainly q (.get index timeout) := by
  rw [ceQueueGet_events]
  -- Whether a code is given away, and which one, depends on the queue, the flag and the timeout.
  cases waiting : q.queue with
  | cons body others =>
    -- A call that hands out an item returns 1, which is right on any queue.
    simp [eachFits_snoc, CodeAgrees, EndsPlainly, waiting]
  | nil =>
    by_cases stopped : q.stop = true
    · -- On a stopped queue the call returns 0 in the place of -1.
      simp [eachFits_snoc, CodeAgrees, EndsPlainly, waiting, stopped, noted.mp stopped]
    · have running : .stopped ∉ trace := mt noted.mpr stopped
      by_cases zero : timeout = 0
      · -- Nothing was stopped, so 0 may be returned.
        simp [eachFits_snoc, CodeAgrees, EndsPlainly, stopped, zero, running]
      · -- The call waits and gives no code away.
        simp [EndsPlainly, stopped, zero]

/-- So does a code that is given away behind the wait. -/
theorem codeAgrees_iff_of_wake {q : CeQueue α n} {trace : List (QueueEvent α n)}
    (noted : StopNoted q trace) (index : Fin n) (timedOut : Bool) :
    EachFits CodeAgrees (trace ++ (q.wakeUp index timedOut).2) ↔
      EachFits CodeAgrees trace ∧ EndsPlainly q (.wake index timedOut) := by
  rw [wakeUp_events]
  by_cases stopped : q.stop = true
  · -- The flag is set, so -1 is right whatever the queue holds.
    simp [eachFits_snoc, CodeAgrees, EndsPlainly, stopped, noted.mp stopped]
  · have running : .stopped ∉ trace := mt noted.mpr stopped
    cases waiting : q.queue with
    | cons body others => simp [eachFits_snoc, CodeAgrees, EndsPlainly, stopped, waiting, running]
    | nil =>
      -- An empty queue after a wait that did not time out is taken for a stop.
      cases timedOut with
      | true => simp [eachFits_snoc, CodeAgrees, EndsPlainly, stopped, running]
      | false => simp [eachFits_snoc, CodeAgrees, EndsPlainly, stopped, waiting, running]

/-- Every section keeps the note of the flag, and agrees with it just when it ends plainly. -/
theorem StopNoted.step {q next : CeQueue α n} {action : QueueAction α n}
    {trace events : List (QueueEvent α n)} (noted : StopNoted q trace)
    (taken : (queueMachine α n).step q action = some (next, events)) :
    StopNoted next (trace ++ events) ∧
      (EachFits CodeAgrees (trace ++ events) ↔ EachFits CodeAgrees trace ∧ EndsPlainly q action) := by
  -- A push and a stop give no code away, and end plainly.
  cases queueMachine_step taken with
  | push index body =>
    exact ⟨by simp [StopNoted, ← noted.eq], by simp [eachFits_snoc, CodeAgrees, EndsPlainly]⟩
  | stop index => exact ⟨by simp [StopNoted], by simp [eachFits_snoc, CodeAgrees, EndsPlainly]⟩
  | get index timeout =>
    obtain ⟨same, silent⟩ := ceQueueGet_stop q index timeout
    exact ⟨noted.keep same silent, codeAgrees_iff_of_get noted index timeout⟩
  | wake index timedOut =>
    obtain ⟨same, silent⟩ := wakeUp_stop q index timedOut
    exact ⟨noted.keep same silent, codeAgrees_iff_of_wake noted index timedOut⟩

/-- A section that ends plainly returns 0 only for a timeout. -/
theorem EndsPlainly.zeroOnTimeout {q : CeQueue α n} {action : QueueAction α n}
    (plain : EndsPlainly q action) : ZeroOnTimeout q action := by
  intro next events taken index body inside
  cases queueMachine_step taken with
  | push index' body' | stop index' => simp at inside
  | get index' timeout =>
    rw [ceQueueGet_events] at inside
    cases waiting : q.queue with
    | cons first others => simp [waiting] at inside
    | nil =>
      -- The queue is empty, so it is not stopped, and only a timeout of 0 is left.
      have running : ¬ q.stop = true := fun stopped => plain stopped waiting
      by_cases zero : timeout = 0
      · rw [waiting] at inside
        simp only [zero, or_true, if_true, List.mem_singleton, QueueEvent.got.injEq] at inside
        rw [inside.1, zero]
        exact .inl rfl
      · simp [waiting, running, zero] at inside
  | wake index' timedOut =>
    rw [wakeUp_events] at inside
    by_cases stopped : q.stop = true
    · simp [stopped] at inside
    · cases waiting : q.queue with
      | cons first others => simp [stopped, waiting] at inside
      | nil =>
        -- The wait has ended with an empty queue, so it has timed out.
        have late : timedOut = true := plain (Bool.not_eq_true _ ▸ stopped) waiting
        simp only [stopped, waiting, late, if_true, if_false, List.mem_singleton,
          QueueEvent.got.injEq, Bool.false_eq_true] at inside
        rw [inside.1, late]
        exact .inr rfl

/--
The return codes tell the truth in exactly the runs whose sections all end plainly.

There may be any number of threads, and a wait may end for any reason at any time.
-/
theorem returnCodesTrue_iff (α : Type) (n : Nat) (body : Fin n → Option α)
    (actions : List (QueueAction α n)) (last : CeQueue α n) (trace : List (QueueEvent α n))
    (ran : (queueMachine α n).exec (CeQueue.new body) actions = some (last, trace)) :
    ReturnCodesTrue (CeQueue.new body) actions trace ↔
      (queueMachine α n).Meets EndsPlainly (CeQueue.new body) actions := by
  let m := queueMachine α n
  -- What the codes say and what the flag is are tied together by the note of the stop.
  have agree : EachFits CodeAgrees trace ↔ m.Meets EndsPlainly (CeQueue.new body) actions := by
    refine m.exec_iff_meets StopNoted (fun _ => EachFits CodeAgrees) ?_ eachFits_nil ?_ ?_ ran
    · simp [StopNoted, CeQueue.new]
    · intro q before action next events noted taken
      exact (noted.step taken).1
    · intro q before action next events noted taken
      exact (noted.step taken).2
  constructor
  · intro true_
    exact agree.mp true_.agree
  · -- The condition makes both parts hold, and the first part alone gives it back.
    intro plain
    exact ⟨agree.mpr plain, m.meets_imp (fun _ _ => EndsPlainly.zeroOnTimeout) plain⟩

instance (q : CeQueue α n) : (action : QueueAction α n) → Decidable (EndsPlainly q action)
  | .get _ _ => inferInstanceAs (Decidable (_ → ¬ _ = _))
  | .wake _ _ => inferInstanceAs (Decidable (_ → _ = _ → _ = _))
  | .push _ _ | .stop _ => isTrue trivial

/-- One call times out, one is handed an item, and one is woken up by the stop. -/
theorem returnCodesTrue_iff_stopped_in_wait : ∃ last trace,
    (queueMachine Nat 2).exec (CeQueue.new fun _ => none)
      [.get 0 2, .wake 0 true, .push 1 (some 7), .get 0 0, .get 0 (-1), .stop 1, .wake 0 false] =
        some (last, trace) ∧
    ReturnCodesTrue (CeQueue.new fun _ => none)
      [.get 0 2, .wake 0 true, .push 1 (some 7), .get 0 0, .get 0 (-1), .stop 1, .wake 0 false]
      trace := by
  obtain ⟨⟨last, trace⟩, ran⟩ := Option.isSome_iff_exists.mp (by rfl : ((queueMachine Nat 2).exec
    (CeQueue.new fun _ => none) [.get 0 2, .wake 0 true, .push 1 (some 7), .get 0 0, .get 0 (-1),
      .stop 1, .wake 0 false]).isSome)
  exact ⟨last, trace, ran, (returnCodesTrue_iff Nat 2 _ _ last trace ran).mpr (by decide)⟩

/-- A thread waits, another one takes the item it was woken up for, and it is told of an abort. -/
theorem not_returnCodesTrue_stolen : ∃ last trace,
    (queueMachine Nat 2).exec (CeQueue.new fun _ => none)
      [.get 0 (-1), .push 1 (some 7), .get 1 0, .wake 0 false] = some (last, trace) ∧
    trace = [.pushed (some 7), .got 1 1 (some 7), .got 0 (-1) none] ∧
    ¬ ReturnCodesTrue (CeQueue.new fun _ => none)
      [.get 0 (-1), .push 1 (some 7), .get 1 0, .wake 0 false] trace := by
  refine ⟨_, _, rfl, rfl, ?_⟩
  intro true_
  -- No stop stands before the code of the first thread.
  have agrees := true_.agree [.pushed (some 7), .got 1 1 (some 7)] (.got 0 (-1) none) [] rfl
  exact absurd (agrees.1 rfl) (by decide)

end Cevent
