import Cevent.Queue.Machine

/-! The blocking queue hands out what was pushed, in order, each body once. -/

namespace Cevent

open Interleaving

variable {α : Type} {n : Nat}

/-- The bodies handed out by calls that returned 1, in order. -/
def bodiesGot (trace : List (QueueEvent α n)) : List (Option α) :=
  trace.filterMap fun
    -- Only the code 1 tells the caller that `*body` holds an item.
    | .got _ ret body => if ret = 1 then some body else none
    | .pushed _ | .stopped => none

/-- The bodies that were pushed, in order. -/
def bodiesPushed (trace : List (QueueEvent α n)) : List (Option α) :=
  trace.filterMap fun
    | .pushed body => some body
    | .got _ _ _ | .stopped => none

@[simp] theorem bodiesGot_append (before after : List (QueueEvent α n)) :
    bodiesGot (before ++ after) = bodiesGot before ++ bodiesGot after :=
  List.filterMap_append

@[simp] theorem bodiesPushed_append (before after : List (QueueEvent α n)) :
    bodiesPushed (before ++ after) = bodiesPushed before ++ bodiesPushed after :=
  List.filterMap_append

/-- What a section of `ce_queue_get` can do. -/
inductive GetSection (q : CeQueue α n) (index : Fin n) :
    CeQueue α n → List (QueueEvent α n) → Prop where
  /-- It removes the first item, and hands its body out. -/
  | handsOut (next : CeQueue α n) (body : Option α) (first : q.queue = body :: next.queue)
      (stored : next.body index = body) : GetSection q index next [.got index 1 body]
  /-- It returns 0 or -1, with nothing in `*body` and the queue as it was. -/
  | fails (next : CeQueue α n) (ret : Int) (code : ret = 0 ∨ ret = -1)
      (same : next.queue = q.queue) (nothing : next.body index = none) :
      GetSection q index next [.got index ret none]
  /-- It waits, with the queue as it was. -/
  | waits (next : CeQueue α n) (same : next.queue = q.queue) : GetSection q index next []

/-- Leaving with an item is to hand it out. -/
theorem GetSection.of_handOut {q start : CeQueue α n} {index : Fin n} {body : Option α}
    {others : List (Option α)} (first : q.queue = body :: others) :
    GetSection q index (start.handOut index body others).1 (start.handOut index body others).2 := by
  -- The event shows what was stored for this thread a moment before.
  have stored : (start.setBody index body).body index = body := Function.update_self ..
  have section_ : GetSection q index _ _ :=
    .handsOut (start.handOut index body others).1 body first stored
  rw [CeQueue.handOut, CeQueue.leave]
  simp only [stored]
  exact section_

/-- Leaving with 0 or -1 is a failure when `*body` was set to `NULL`. -/
theorem GetSection.of_leave {q start : CeQueue α n} {index : Fin n} {ret : Int}
    (code : ret = 0 ∨ ret = -1) (same : start.queue = q.queue) (nothing : start.body index = none) :
    GetSection q index (start.leave index ret).1 (start.leave index ret).2 := by
  rw [CeQueue.leave, nothing]
  exact .fails _ ret code same nothing

/-- The first section of `ce_queue_get` is one of these. -/
theorem ceQueueGet_section (q : CeQueue α n) (index : Fin n) (timeout : Int) :
    GetSection q index (q.ceQueueGet index timeout).1 (q.ceQueueGet index timeout).2 := by
  unfold CeQueue.ceQueueGet
  -- The first section looks at the queue before it looks at anything else.
  cases waiting : q.queue with
  | cons body others =>
    simp only [CeQueue.setBody, waiting]
    exact .of_handOut waiting
  | nil =>
    simp only [CeQueue.setBody, waiting]
    -- With an empty queue it leaves on a stop, leaves on a timeout of zero, or waits.
    split_ifs
    · exact .of_leave (.inl rfl) waiting.symm (Function.update_self ..)
    · exact .of_leave (.inl rfl) waiting.symm (Function.update_self ..)
    · exact .waits _ waiting.symm

/-- So is the section behind the wait. -/
theorem wakeUp_section (q : CeQueue α n) (index : Fin n) (timedOut : Bool) :
    GetSection q index (q.wakeUp index timedOut).1 (q.wakeUp index timedOut).2 := by
  unfold CeQueue.wakeUp
  split
  · -- The queue was stopped during the wait.
    exact .of_leave (.inr rfl) rfl (Function.update_self ..)
  · split
    · rename_i body others waiting
      exact .of_handOut waiting
    · -- An empty queue means 0 after a timeout, and -1 after any other end of the wait.
      refine .of_leave ?_ rfl (Function.update_self ..)
      cases timedOut with
      | true => exact .inl rfl
      | false => exact .inr rfl

/-- The thread whose `ce_queue_get` a section belongs to. -/
def QueueAction.getter : QueueAction α n → Option (Fin n)
  | .get index _ | .wake index _ => some index
  | .push _ _ | .stop _ => none

/-- A section of `ce_queue_get` hands out the first body, or leaves the queue as it is. -/
def GetsOrLeaves (q : CeQueue α n) (action : QueueAction α n) : Prop :=
  ∀ index ∈ action.getter, ∀ next events,
    (queueMachine α n).step q action = some (next, events) → GetSection q index next events

/-- Every section of `ce_queue_get` does. -/
theorem getsOrLeaves (q : CeQueue α n) (action : QueueAction α n) : GetsOrLeaves q action := by
  intro index getter next events taken
  -- The other two sections belong to no call of `ce_queue_get`.
  cases queueMachine_step taken with
  | push | stop => cases getter
  | get index' timeout =>
    cases getter
    exact ceQueueGet_section q index timeout
  | wake index' timedOut =>
    cases getter
    exact wakeUp_section q index timedOut

/-- What was handed out and what is queued is what was pushed. -/
def QueueInv (q : CeQueue α n) (trace : List (QueueEvent α n)) : Prop :=
  bodiesGot trace ++ q.queue = bodiesPushed trace

/-- A section of `ce_queue_get` moves the first body from the queue to those handed out, or nothing. -/
theorem QueueInv.get {q next : CeQueue α n} {index : Fin n} {trace events : List (QueueEvent α n)}
    (inv : QueueInv q trace) (section_ : GetSection q index next events) :
    QueueInv next (trace ++ events) := by
  unfold QueueInv at inv ⊢
  rw [bodiesGot_append, bodiesPushed_append, ← inv]
  -- Only handing out moves a body, from the front of the queue to the end of the bodies got.
  cases section_ with
  | handsOut body first stored => simp [bodiesGot, bodiesPushed, first]
  | fails ret code same nothing =>
    rcases code with rfl | rfl <;> simp [bodiesGot, bodiesPushed, same]
  | waits same => simp [bodiesGot, bodiesPushed, same]

/-- Every section keeps that. -/
theorem QueueInv.step {q next : CeQueue α n} {action : QueueAction α n}
    {trace events : List (QueueEvent α n)} (inv : QueueInv q trace)
    (taken : (queueMachine α n).step q action = some (next, events)) :
    QueueInv next (trace ++ events) := by
  cases queueMachine_step taken with
  | get index timeout => exact inv.get (ceQueueGet_section q index timeout)
  | wake index timedOut => exact inv.get (wakeUp_section q index timedOut)
  | push index body =>
    -- The body joins the end of what is queued and the end of what was pushed.
    unfold QueueInv at inv ⊢
    rw [bodiesGot_append, bodiesPushed_append, ← inv]
    simp [bodiesGot, bodiesPushed]
  | stop index =>
    unfold QueueInv at inv ⊢
    rw [bodiesGot_append, bodiesPushed_append, ← inv]
    simp [bodiesGot, bodiesPushed]

/--
In every run, the bodies handed out and then those queued are the bodies pushed, in order.

A call that returns 0 or -1 leaves the queue as it is in each of its sections, and `*body` is `NULL`.
-/
theorem queue_hands_out_in_order (α : Type) (n : Nat) (body : Fin n → Option α)
    (actions : List (QueueAction α n)) (last : CeQueue α n) (trace : List (QueueEvent α n))
    (ran : (queueMachine α n).exec (CeQueue.new body) actions = some (last, trace)) :
    bodiesGot trace ++ last.queue = bodiesPushed trace ∧
      (queueMachine α n).Meets GetsOrLeaves (CeQueue.new body) actions := by
  constructor
  · -- Nothing is pushed, queued or handed out at the start.
    have start : QueueInv (CeQueue.new body) [] := rfl
    refine (queueMachine α n).exec_invariant QueueInv start ?_ ran
    intro q before action next events inv taken
    exact inv.step taken
  · -- The second part is about each section for itself.
    exact (queueMachine α n).meets_of_forall getsOrLeaves _ _

/-- A thread waits, and the item that wakes it up is taken by another one. -/
theorem queue_hands_out_in_order_stolen : ∃ last trace,
    (queueMachine Nat 2).exec (CeQueue.new fun _ => none)
      [.get 0 5, .push 1 (some 7), .get 1 0, .wake 0 false, .push 1 (some 8), .push 1 none,
        .get 0 (-1), .stop 1] = some (last, trace) ∧
    bodiesGot trace ++ last.queue = bodiesPushed trace := by
  obtain ⟨⟨last, trace⟩, ran⟩ := Option.isSome_iff_exists.mp (by rfl : ((queueMachine Nat 2).exec
    (CeQueue.new fun _ => none) [.get 0 5, .push 1 (some 7), .get 1 0, .wake 0 false,
      .push 1 (some 8), .push 1 none, .get 0 (-1), .stop 1]).isSome)
  exact ⟨last, trace, ran, (queue_hands_out_in_order Nat 2 _ _ last trace ran).1⟩

end Cevent
