import Cevent.Queue.ReturnCodes
import Cevent.Queue.Sleepers

/-! Which consumers of the queue are left asleep: past an item, and past a stop. -/

namespace Cevent

open Interleaving

variable {α : Type} {n : Nat}

/--
While a consumer is asleep, each queued item has a consumer that comes for it.

Those were woken, and have not looked at the queue again.
-/
def NoneStranded (s : SleepQueue α n) : Prop :=
  s.cond.sleepers.Nonempty → s.q.queue.length ≤ s.cond.stirred.card

/-- Nobody is asleep on a stopped queue beyond those whom running calls will still wake. -/
def Released (s : SleepQueue α n) : Prop :=
  s.q.stop = true → s.cond.sleepers.card ≤ s.signallers.card

/-- A stop finds no more consumers asleep than it wakes itself and other running calls will wake. -/
def StopReachesAll (s : SleepQueue α n) : SleepAction α n → Prop
  | .lock index woken =>
    match s.entered index with
    -- The call itself is among those that will signal, until its section is over.
    | some .stop => s.cond.sleepers.card < s.signallers.card + woken.card
    | some (.push _) | some (.get _) | none => True
  | .enter _ _ | .rouse _ | .wake _ _ => True

/-- Rousing sleepers keeps the balance of items and those who come for them, as a signal does for an item. -/
theorem NoneStranded.rouse {s next : SleepQueue α n} {who : Finset (Fin n)}
    (inv : NoneStranded s) (within : who ⊆ s.cond.sleepers) (cond : next.cond = s.cond.rouse who)
    (queue : next.q.queue.length ≤ s.q.queue.length + who.card) : NoneStranded next := by
  intro asleep
  rw [cond] at asleep ⊢
  have before := inv (Condition.nonempty_of_rouse asleep)
  -- Each sleeper that is roused is one more who comes for an item.
  rw [Condition.card_stirred_rouse within]
  omega

/-- Only a stop sets the stop flag, and nothing clears it. -/
theorem sleepMachine_stop {s next : SleepQueue α n} {action : SleepAction α n}
    {events : List (QueueEvent α n)}
    (taken : (sleepMachine α n).step s action = some (next, events))
    (running : next.q.stop = false) : s.q.stop = false := by
  cases sleepMachine_step taken with
  | enter | push | rouse => exact running
  | stop => cases running
  | get index woken timeout | sleep index woken timeout =>
    exact (ceQueueGet_stop s.q index timeout).1 ▸ running
  | wake index timedOut => exact (wakeUp_stop s.q index timedOut).1 ▸ running

/-- Until the queue is stopped, every step keeps the balance of items and those who come for them. -/
theorem NoneStranded.step {s next : SleepQueue α n} {action : SleepAction α n}
    {events : List (QueueEvent α n)} (balance : NoneStranded s)
    (taken : (sleepMachine α n).step s action = some (next, events))
    (running : next.q.stop = false) : NoneStranded next := by
  cases sleepMachine_step taken with
  | enter index call outside free => exact balance
  | push index woken body entered signals outside =>
    intro asleep
    -- Somebody was asleep, so the signal has woken one consumer at least for the new item.
    have someone := Finset.card_pos.mpr (signals.someone (Condition.nonempty_of_rouse asleep))
    refine balance.rouse signals.within rfl ?_ asleep
    rw [List.length_append, List.length_singleton]
    omega
  | stop index woken entered signals outside => cases running
  | get index woken timeout entered outside caller =>
    intro asleep
    have before := balance asleep
    -- An item may have gone to a consumer that nobody has woken for it.
    rw [ceQueueGet_queue, List.length_tail]
    exact (Nat.sub_le ..).trans before
  | sleep index woken timeout entered outside empty notStopped caller =>
    intro asleep
    -- A consumer falls asleep on an empty queue only.
    rw [ceQueueGet_queue, empty]
    exact Nat.zero_le _
  | rouse index asleep =>
    exact balance.rouse (by simpa using asleep) rfl (Nat.le_add_right ..)
  | wake index timedOut timeout roused waits may =>
    intro asleep
    have awake : s.cond index ≠ .asleep := by simp [roused]
    rw [Condition.sleepers_leave awake] at asleep
    have before := balance asleep
    have notStopped := sleepMachine_stop taken running
    have one := Finset.card_erase_of_mem (Condition.mem_stirred.mpr roused)
    -- One consumer fewer will come for an item, and it has taken one, if there was one.
    rw [wakeUp_queue, notStopped, if_neg (by simp), Condition.stirred_leave, one, List.length_tail]
    omega

/--
No pushed item is stranded while a consumer sleeps.

In every run of any number of threads, as long as the queue is not stopped, a consumer that is in its
wait and was not woken faces no more items than there are consumers who were woken and have not
looked at the queue again.
-/
theorem queue_length_le_woken (α : Type) (n : Nat) (body : Fin n → Option α)
    {actions : List (SleepAction α n)} {last : SleepQueue α n} {trace : List (QueueEvent α n)}
    (ran : (sleepMachine α n).exec (SleepQueue.new body) actions = some (last, trace))
    (running : last.q.stop = false) (consumer : Fin n) (timeout : Int)
    (waits : last.q.caller consumer = .waiting timeout)
    (notWoken : last.cond consumer ≠ .roused) :
    last.q.queue.length ≤ last.cond.stirred.card := by
  let m := sleepMachine α n
  have inv : SleepInv last := m.exec_invariant (fun s _ => SleepInv s) (SleepInv.new body)
    (fun s before action next events inv taken => inv.step taken) ran
  -- The stop flag stays set once it is set, so it was not set at any time before.
  have balance : last.q.stop = false → NoneStranded last := by
    refine m.exec_invariant (fun s _ => s.q.stop = false → NoneStranded s) ?_ ?_ ran
    · intro _ asleep
      exact Nat.zero_le _
    · intro s before action next events early taken running
      exact (early (sleepMachine_stop taken running)).step taken running
  -- A consumer in its wait is asleep or was roused.
  have asleep : last.cond consumer = .asleep := by
    cases rest : last.cond consumer with
    | away =>
      rw [(inv.away consumer).mp rest] at waits
      cases waits
    | asleep => rfl
    | roused => exact absurd rest notWoken
  exact balance running ⟨consumer, Condition.mem_sleepers.mpr asleep⟩

/-- Two consumers wait, and an item is pushed, whose signal wakes the first of them. -/
def pushForOneOfTwo {n : Nat} (first second third : Fin n) : List (SleepAction Nat n) :=
  [.enter first (.get (-1)), .lock first ∅, .enter second (.get 5), .lock second ∅,
    .enter third (.push (some 7)), .lock third {first}]

/-- The one that was woken has not come for the item yet, and the other one is asleep. -/
theorem queue_length_le_woken_one_of_two : ∃ last trace,
    (sleepMachine Nat 3).exec (SleepQueue.new fun _ => none) (pushForOneOfTwo 0 1 2) =
      some (last, trace) ∧
    last.q.queue.length ≤ last.cond.stirred.card := by
  refine ⟨_, _, rfl, ?_⟩
  exact queue_length_le_woken Nat 3 (fun _ => none)
    (show (sleepMachine Nat 3).exec (SleepQueue.new fun _ => none) (pushForOneOfTwo 0 1 2) = _ from rfl)
    rfl 1 5 rfl (by decide)

/-- A thread will signal when the call it has entered does. -/
theorem mem_signallers {s : SleepQueue α n} {index : Fin n} :
    index ∈ s.signallers ↔ ∃ call, s.entered index = some call ∧ call.signals = true := by
  simp [SleepQueue.signallers, Option.any_eq_true]

/-- Who will still signal, after a thread's section is over. -/
theorem signallers_of_left {s next : SleepQueue α n} {index : Fin n}
    (entered : next.entered = Function.update s.entered index none) :
    next.signallers = s.signallers.erase index := by
  ext other
  by_cases same : other = index
  · simp [mem_signallers, entered, same]
  · simp [mem_signallers, entered, same]

/-- A section that signals is the last that is heard of a signaller. -/
theorem card_erase_signaller {s : SleepQueue α n} {index : Fin n} {call : QueueCall α}
    (inside : s.entered index = some call) (signals : call.signals = true) :
    (s.signallers.erase index).card + 1 = s.signallers.card :=
  Finset.card_erase_add_one (mem_signallers.mpr ⟨call, inside, signals⟩)

/-- A step keeps the consumers released just when it is no stop, or a stop that reaches them all. -/
theorem Released.step_iff {s next : SleepQueue α n} {action : SleepAction α n}
    {events : List (QueueEvent α n)} (released : Released s)
    (taken : (sleepMachine α n).step s action = some (next, events)) :
    Released next ↔ StopReachesAll s action := by
  cases sleepMachine_step taken with
  | enter index call outside free =>
    refine iff_of_true ?_ trivial
    intro stopped
    -- A call that is entered may be one more that will signal.
    refine (released stopped).trans (Finset.card_le_card ?_)
    intro other inside
    have apart : other ≠ index := by
      rintro rfl
      simp [mem_signallers, free] at inside
    simpa [mem_signallers, apart] using inside
  | push index woken body entered signals outside =>
    simp only [StopReachesAll, entered, iff_true]
    intro stopped
    have before := released stopped
    have fewer := Condition.card_sleepers_rouse signals.within
    have left := card_erase_signaller entered rfl
    rw [signallers_of_left rfl]
    show (s.cond.rouse woken).sleepers.card ≤ (s.signallers.erase index).card
    -- Its signal wakes one of those who are asleep, if there are any.
    rcases s.cond.sleepers.eq_empty_or_nonempty with none_ | some_
    · rw [none_, Finset.card_empty] at fewer
      omega
    · have someone := Finset.card_pos.mpr (signals.someone some_)
      omega
  | stop index woken entered signals outside =>
    simp only [StopReachesAll, entered]
    have fewer := Condition.card_sleepers_rouse signals.within
    have left := card_erase_signaller entered rfl
    rw [Released, signallers_of_left rfl]
    show (true = true → (s.cond.rouse woken).sleepers.card ≤ (s.signallers.erase index).card) ↔ _
    constructor
    · intro after
      have now := after rfl
      omega
    · intro reaches _
      omega
  | get index woken timeout entered outside caller =>
    simp only [StopReachesAll, entered, iff_true]
    intro stopped
    have member : index ∉ s.signallers := by
      simp [mem_signallers, entered, QueueCall.signals]
    rw [signallers_of_left rfl, Finset.erase_eq_of_notMem member]
    exact released ((ceQueueGet_stop s.q index timeout).1 ▸ stopped)
  | sleep index woken timeout entered outside empty running caller =>
    simp only [StopReachesAll, entered, iff_true]
    intro stopped
    -- Nobody falls asleep on a stopped queue.
    have before : s.q.stop = true := (ceQueueGet_stop s.q index timeout).1 ▸ stopped
    rw [running] at before
    cases before
  | rouse index asleep =>
    refine iff_of_true ?_ trivial
    intro stopped
    have member : {index} ⊆ s.cond.sleepers := by simpa using asleep
    have fewer := Condition.card_sleepers_rouse member
    exact (Nat.le.intro fewer).trans (released stopped)
  | wake index timedOut timeout roused waits may =>
    refine iff_of_true ?_ trivial
    intro stopped
    have awake : s.cond index ≠ .asleep := by simp [roused]
    rw [Condition.sleepers_leave awake]
    exact released ((wakeUp_stop s.q index timedOut).1 ▸ stopped)

/--
A stopped queue leaves nobody asleep in exactly the runs whose stops reach all consumers.

It holds in every state of a run of any number of threads, whatever its pushes, gets and stops are and
however its waits end.
-/
theorem released_iff (α : Type) (n : Nat) (body : Fin n → Option α)
    {actions : List (SleepAction α n)} {last : SleepQueue α n} {trace : List (QueueEvent α n)}
    (ran : (sleepMachine α n).exec (SleepQueue.new body) actions = some (last, trace)) :
    (sleepMachine α n).Along Released (SleepQueue.new body) actions ↔
      (sleepMachine α n).Meets StopReachesAll (SleepQueue.new body) actions := by
  refine (sleepMachine α n).exec_along_iff_meets (fun _ => True) Released trivial ?_ ?_ ?_ ran
  · intro stopped
    cases stopped
  · intros
    trivial
  · intro s action next events _ released taken
    exact released.step_iff taken

instance (s : SleepQueue α n) : (action : SleepAction α n) → Decidable (StopReachesAll s action)
  | .lock index woken =>
    match entered : s.entered index with
    | some .stop =>
      decidable_of_iff (s.cond.sleepers.card < s.signallers.card + woken.card)
        (by simp only [StopReachesAll, entered])
    | some (.push _) | some (.get _) | none => isTrue (by simp only [StopReachesAll, entered])
  | .enter _ _ | .rouse _ | .wake _ _ => isTrue trivial

/-- Two consumers wait without a limit, one gets an item, and the queue is stopped for the other. -/
def pushThenStop {n : Nat} (first second third : Fin n) : List (SleepAction Nat n) :=
  [.enter first (.get (-1)), .lock first ∅, .enter second (.get (-1)), .lock second ∅,
    .enter third (.push (some 7)), .lock third {first}, .wake first false,
    .enter third .stop, .lock third {second}, .wake second false]

/-- Both are woken up. -/
theorem released_iff_two_consumers :
    (sleepMachine Nat 3).Along Released (SleepQueue.new fun _ => none) (pushThenStop 0 1 2) :=
  (released_iff Nat 3 (fun _ => none)
    (show (sleepMachine Nat 3).exec (SleepQueue.new fun _ => none) (pushThenStop 0 1 2) = _ from rfl)).mpr
    (by decide)

/-- Two consumers wait without a limit, and the queue is stopped. -/
def stopForTwo {n : Nat} (first second third : Fin n) : List (SleepAction Nat n) :=
  [.enter first (.get (-1)), .lock first ∅, .enter second (.get (-1)), .lock second ∅,
    .enter third .stop, .lock third {first}, .wake first false]

/-- The one that the signal wakes returns, and the other one is asleep for good. -/
theorem not_released_two_consumers : ∃ last trace,
    (sleepMachine Nat 3).exec (SleepQueue.new fun _ => none) (stopForTwo 0 1 2) =
      some (last, trace) ∧
    last.q.stop = true ∧ last.q.caller 1 = .waiting (-1) ∧ last.cond 1 = .asleep ∧
    last.signallers = ∅ ∧
    ¬ (sleepMachine Nat 3).Along Released (SleepQueue.new fun _ => none) (stopForTwo 0 1 2) := by
  refine ⟨_, _, rfl, rfl, rfl, by decide, by decide, ?_⟩
  intro along
  have released : Released _ := along.last rfl
  exact absurd (released rfl) (by decide)

end Cevent
