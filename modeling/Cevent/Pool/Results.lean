import Cevent.Pool.Handles
import Mathlib.Data.Fintype.Sum

/-! A wait for a job returns its result where no call is under way when its worker is freed. -/

namespace Cevent

open Interleaving

variable {n : Nat} {θ ρ : Type*}

namespace HandlePool

/-- No wait for the worker has come past its semaphore, and none can. -/
def Unread (s : HandlePool n θ ρ) (id : Nat) (worker : TpWorker ρ) : Prop :=
  worker.sem = 0 ∧ ∀ caller, s.caller caller ≠ some (id, .reading)

/-- A call that does not come past the semaphore of the worker leaves it so. -/
theorem Unread.calls [DecidableEq θ] {s : HandlePool n θ ρ} {id : Nat} {worker : TpWorker ρ}
    (before : s.Unread id worker) (caller : Fin n ⊕ θ) {next : Option (Nat × HandleStage ρ)}
    (quiet : next ≠ some (id, .reading)) :
    Unread { s with caller := Function.update s.caller caller next } id worker := by
  refine ⟨before.1, ?_⟩
  intro other
  by_cases same : other = caller
  · simpa [same] using quiet
  · simpa [same] using before.2 other

/-- What is so of a worker that a thread holds at a stage. -/
def Agrees (s : HandlePool n θ ρ) (id : Nat) (worker : TpWorker ρ) : RoutineStage ρ → Prop
  | .taken | .processing => s.processed id = none
  | .returned value => s.processed id = some value ∧ s.Unread id worker
  | .stored | .completed | .posted | .completing | .freeing | .unlinked | .reposted =>
    s.processed id = some worker.result

/-- A call has its handle where it needs it, and returns what `process_cb` returned. -/
def CallKept (s : HandlePool n θ ρ) (id : Nat) : HandleStage ρ → Prop
  | .touching | .waiting | .reading => s.heap id ≠ none
  | .returning value => s.processed id = some value

/-- It is so of every call. -/
def ResultsKept (s : HandlePool n θ ρ) : Prop :=
  ∀ caller id stage, s.caller caller = some (id, stage) → s.CallKept id stage

/--
A call is begun on a handle that is not freed, and a worker is freed when no call needs its handle.

The other actions meet no condition.
-/
def HandleHeld (s : HandlePool n θ ρ) : HandleAction n θ ρ → Prop
  | .touch _ id | .wait _ id => s.heap id ≠ none
  | .routine index =>
    match s.thread index with
    | some (id, .reposted) => ∀ caller, s.uses caller id = false
    | _ => True
  | .register _ _ | .call _ _ | .processReturns _ _ | .completeReturns _ => True

end HandlePool

/-- Every worker is in the queue once, or held by one thread, or neither. -/
structure WorkersApart (queue : List Nat) (thread : Fin n → Option (Nat × RoutineStage ρ)) :
    Prop where
  nodup : queue.Nodup
  apart : ∀ index id stage, thread index = some (id, stage) → id ∉ queue
  one : ∀ index other id stage stage', thread index = some (id, stage) →
    thread other = some (id, stage') → index = other

namespace WorkersApart

variable {queue : List Nat} {thread : Fin n → Option (Nat × RoutineStage ρ)}

/-- A thread that goes on with a worker nobody else has keeps it. -/
theorem goes (placed : WorkersApart queue thread) {index : Fin n} {id : Nat}
    {stage : RoutineStage ρ} (out : id ∉ queue)
    (alone : ∀ other stage, thread other = some (id, stage) → other = index) :
    WorkersApart queue (Function.update thread index (some (id, stage))) where
  nodup := placed.nodup
  apart other id' stage' place := by
    by_cases same : other = index
    · rw [same, Function.update_self] at place
      cases place
      exact out
    · rw [Function.update_of_ne same] at place
      exact placed.apart other id' stage' place
  one other other' id' stage' stage'' place place' := by
    -- Of two different threads at most one is the thread that goes on.
    by_cases same : other = index <;> by_cases same' : other' = index
    · rw [same, same']
    · rw [same, Function.update_self] at place
      rw [Function.update_of_ne same'] at place'
      cases place
      exact same.trans (alone other' stage'' place').symm
    · rw [same', Function.update_self] at place'
      rw [Function.update_of_ne same] at place
      cases place'
      exact (alone other stage' place).trans same'.symm
    · rw [Function.update_of_ne same] at place
      rw [Function.update_of_ne same'] at place'
      exact placed.one other other' id' stage' stage'' place place'

/-- What a thread holds when another one is finished with its worker, it has held before. -/
theorem held_of_leaves {index other : Fin n} {id : Nat} {stage : RoutineStage ρ}
    (place : Function.update thread index none other = some (id, stage)) :
    thread other = some (id, stage) := by
  -- The thread that is finished holds nothing any more.
  by_cases same : other = index
  · rw [same, Function.update_self] at place
    cases place
  · rwa [Function.update_of_ne same] at place

/-- So does a thread that is finished with its worker. -/
theorem leaves (placed : WorkersApart queue thread) (index : Fin n) :
    WorkersApart queue (Function.update thread index none) where
  nodup := placed.nodup
  apart other id stage place := placed.apart other id stage (held_of_leaves place)
  one other other' id stage stage' place place' :=
    placed.one other other' id stage stage' (held_of_leaves place) (held_of_leaves place')

/-- So does a shorter queue. -/
theorem shorter (placed : WorkersApart queue thread) {less : List Nat} (part : less.Sublist queue) :
    WorkersApart less thread where
  nodup := placed.nodup.sublist part
  apart index id stage place member := placed.apart index id stage place (part.subset member)
  one := placed.one

/-- So does a new worker at the end of the queue. -/
theorem joins (placed : WorkersApart queue thread) {id : Nat} (out : id ∉ queue)
    (idle : ∀ index stage, thread index ≠ some (id, stage)) :
    WorkersApart (queue ++ [id]) thread where
  nodup := List.nodup_append.mpr ⟨placed.nodup, by simp, by grind⟩
  apart index id' stage place member := by
    -- A thread would have to hold a worker that did not exist before.
    rcases List.mem_append.mp member with old | new
    · exact placed.apart index id' stage place old
    · rw [List.mem_singleton.mp new] at place
      exact idle index stage place
  one := placed.one

end WorkersApart

/-- Who holds which worker, and which results can be read. -/
structure ResultInv (s : HandlePool n θ ρ) : Prop where
  placed : WorkersApart s.workerQueue s.thread
  queued : ∀ id ∈ s.workerQueue, s.processed id = none ∧ ∃ worker, s.heap id = some worker
  held : ∀ index id stage, s.thread index = some (id, stage) →
    ∃ worker, s.heap id = some worker ∧ s.Agrees id worker stage
  /-- A wait comes past the semaphore behind the store of the result only. -/
  ready : ∀ id worker, s.heap id = some worker →
    s.Unread id worker ∨ s.processed id = some worker.result
  fresh : ∀ id, s.allocated ≤ id → s.heap id = none ∧ s.processed id = none
  named : ∀ caller id stage, s.caller caller = some (id, stage) → id < s.allocated

namespace ResultInv

variable {s : HandlePool n θ ρ}

/-- A new pool has it. -/
theorem create (n : Nat) (θ ρ : Type*) : ResultInv (HandlePool.create n θ ρ) where
  placed := {
    nodup := List.nodup_nil
    apart := by
      intro index id stage place
      cases place
    one := by
      intro index other id stage stage' place
      cases place }
  queued id member := by cases member
  held index id stage place := by cases place
  ready id worker found := by cases found
  fresh id _ := ⟨rfl, rfl⟩
  named caller id stage place := by cases place

/-- A worker that is not freed was allocated. -/
theorem lt_allocated (inv : ResultInv s) {id : Nat} {worker : TpWorker ρ}
    (found : s.heap id = some worker) : id < s.allocated := by
  by_contra beyond
  rw [(inv.fresh id (Nat.le_of_not_lt beyond)).1] at found
  cases found

/-- The worker that a thread holds agrees with the stage of the thread. -/
theorem agrees (inv : ResultInv s) {index : Fin n} {id : Nat} {worker : TpWorker ρ}
    {stage : RoutineStage ρ} (place : s.thread index = some (id, stage))
    (found : s.heap id = some worker) : s.Agrees id worker stage := by
  obtain ⟨same, found', agrees⟩ := inv.held index id stage place
  rw [found] at found'
  cases found'
  exact agrees

/-- A worker that a wait can read has its result, and nobody is about to store another one. -/
theorem settled (inv : ResultInv s) {id : Nat} {worker : TpWorker ρ}
    (found : s.heap id = some worker) (read : ¬ s.Unread id worker) :
    s.processed id = some worker.result ∧
      ∀ index value, s.thread index ≠ some (id, .returned value) := by
  refine ⟨(inv.ready id worker found).resolve_left read, ?_⟩
  intro index value place
  -- A thread that is about to store a result has a worker that nobody can have read.
  exact read (inv.agrees place found).2

/--
What one thread does to its worker keeps it, when the worker agrees with the stage that follows.

The other workers and the calls are as they were.
-/
theorem works (inv : ResultInv s) {index : Fin n} {id : Nat} {worker after : TpWorker ρ}
    {stage next : RoutineStage ρ} {processed : Nat → Option (Option ρ)}
    (place : s.thread index = some (id, stage)) (found : s.heap id = some worker)
    (others : ∀ other, other ≠ id → processed other = s.processed other)
    (agrees : HandlePool.Agrees { s with processed := processed } id after next)
    (ready : s.Unread id after ∨ processed id = some after.result) :
    ResultInv { s.stores index id after next with processed := processed } where
  placed := inv.placed.goes (inv.placed.apart index id stage place)
    (fun other stage' place' => inv.placed.one other index id stage' stage place' place)
  queued other member := by
    have apart : other ≠ id := fun same => inv.placed.apart index id stage place (same ▸ member)
    simpa [HandlePool.stores, apart, others other apart] using inv.queued other member
  held other id' stage' place' := by
    -- The thread itself holds the changed worker, and the others hold other workers.
    by_cases same : other = index
    · subst same
      obtain ⟨rfl, rfl⟩ : id = id' ∧ next = stage' := by
        simpa [HandlePool.stores] using place'
      exact ⟨after, Function.update_self .., agrees⟩
    · have before : s.thread other = some (id', stage') := by
        simpa [HandlePool.stores, same] using place'
      have apart : id' ≠ id := by
        rintro rfl
        exact same (inv.placed.one other index id' stage' stage before place)
      obtain ⟨worker', found', agrees'⟩ := inv.held other id' stage' before
      refine ⟨worker', by simpa [HandlePool.stores, apart] using found', ?_⟩
      have value := others id' apart
      cases stage' <;>
        simpa [HandlePool.Agrees, HandlePool.Unread, HandlePool.stores, value] using agrees'
  ready id' worker' found' := by
    by_cases same : id' = id
    · subst same
      obtain rfl : after = worker' := by simpa [HandlePool.stores] using found'
      exact ready
    · have value := others id' same
      have found'' : s.heap id' = some worker' := by simpa [HandlePool.stores, same] using found'
      simpa [HandlePool.Unread, HandlePool.stores, value] using inv.ready id' worker' found''
  fresh id' beyond := by
    -- What is not allocated yet is not the worker of a thread.
    have apart : id' ≠ id := by
      have := inv.lt_allocated found
      have : s.allocated ≤ id' := beyond
      omega
    simpa [HandlePool.stores, apart, others id' apart] using inv.fresh id' beyond
  named := inv.named

/-- Each statement of a thread leaves its worker as the next one needs it. -/
theorem statement_agrees (inv : ResultInv s) {index : Fin n} {id : Nat} {worker after : TpWorker ρ}
    {stage next : RoutineStage ρ} (place : s.thread index = some (id, stage))
    (found : s.heap id = some worker) (statement : stage.statement worker = some (after, next)) :
    s.Agrees id after next ∧ (s.Unread id after ∨ s.processed id = some after.result) := by
  have agrees := inv.agrees place found
  have ready := inv.ready id worker found
  -- One case for each statement, and those that are up to a callback or the heap are none.
  cases stage with
  | taken =>
    cases statement
    exact ⟨agrees, ready⟩
  | processing | completing | freeing | reposted => cases statement
  | returned value =>
    cases statement
    -- The store makes the result the one that `process_cb` has returned.
    exact ⟨agrees.1, .inr agrees.1⟩
  | stored | completed | unlinked =>
    cases statement
    exact ⟨agrees, .inr agrees⟩
  | posted =>
    obtain ⟨rfl, rfl⟩ := Prod.mk.inj (Option.some.inj statement)
    refine ⟨?_, ready⟩
    split <;> exact agrees

/-- A thread that takes the first worker of the queue keeps it. -/
theorem takes (inv : ResultInv s) {index : Fin n} {id : Nat} {others : List Nat}
    (first : s.workerQueue = id :: others) :
    ResultInv { s with
      workerQueue := others
      thread := Function.update s.thread index (some (id, .taken)) } where
  placed := by
    have out : id ∉ others := (List.nodup_cons.mp (first ▸ inv.placed.nodup)).1
    refine (inv.placed.shorter (first ▸ List.sublist_cons_self id others)).goes out ?_
    intro other stage place
    exact absurd (first ▸ List.mem_cons_self) (inv.placed.apart other id stage place)
  queued other member := inv.queued other (first ▸ List.mem_cons_of_mem id member)
  held other id' stage' place' := by
    by_cases same : other = index
    · rw [same] at place'
      obtain ⟨rfl, rfl⟩ : id = id' ∧ .taken = stage' := by simpa using place'
      -- A queued worker was not processed yet, as the first stage asks for.
      obtain ⟨idle, worker, found⟩ := inv.queued id (first ▸ List.mem_cons_self)
      exact ⟨worker, found, idle⟩
    · have before : s.thread other = some (id', stage') := by simpa [same] using place'
      obtain ⟨worker, found, agrees⟩ := inv.held other id' stage' before
      refine ⟨worker, found, ?_⟩
      cases stage' <;> exact agrees
  ready := inv.ready
  fresh := inv.fresh
  named := inv.named

/-- A thread that frees its worker keeps it. -/
theorem frees (inv : ResultInv s) {index : Fin n} {id : Nat} {stage : RoutineStage ρ}
    (place : s.thread index = some (id, stage)) :
    ResultInv { s with
      heap := Function.update s.heap id none
      thread := Function.update s.thread index none } where
  placed := inv.placed.leaves index
  queued other member := by
    have apart : other ≠ id := fun same => inv.placed.apart index id stage place (same ▸ member)
    simpa [apart] using inv.queued other member
  held other id' stage' place' := by
    have before := WorkersApart.held_of_leaves place'
    -- No other thread holds the worker that is freed.
    have apart : id' ≠ id := by
      rintro rfl
      have same := inv.placed.one other index id' stage' stage before place
      rw [same] at place'
      simp at place'
    obtain ⟨worker, found, agrees⟩ := inv.held other id' stage' before
    refine ⟨worker, by simpa [apart] using found, ?_⟩
    cases stage' <;> exact agrees
  ready id' worker found := by
    by_cases same : id' = id
    · simp [same] at found
    · exact inv.ready id' worker (by simpa [same] using found)
  fresh id' beyond := by
    by_cases same : id' = id
    · simpa [same] using (inv.fresh id' beyond).2
    · simpa [same] using inv.fresh id' beyond
  named := inv.named

/-- Each step of `ce_tp_routine` keeps it. -/
theorem routine (inv : ResultInv s) {index : Fin n} {next : HandlePool n θ ρ}
    (taken : s.ceTpRoutine index = some next) : ResultInv next := by
  cases HandlePool.ceTpRoutine_cases taken with
  | takes id others place first => exact inv.takes first
  | states id worker after stage stage' place found statement =>
    obtain ⟨agrees, ready⟩ := inv.statement_agrees place found statement
    exact inv.works place found (fun _ _ => rfl) agrees ready
  | unlinks id worker place found =>
    -- A worker that a thread holds is not in the queue.
    rw [List.erase_of_not_mem (inv.placed.apart index id _ place)]
    have agrees := inv.agrees place found
    exact inv.works place found (fun _ _ => rfl) agrees (inv.ready id worker found)
  | frees id worker place found => exact inv.frees place

/-- So does the end of `process_cb`, whose result is not stored yet. -/
theorem processReturns (inv : ResultInv s) {index : Fin n} {id : Nat} (value : Option ρ)
    (place : s.thread index = some (id, .processing)) :
    ResultInv { s with
      thread := Function.update s.thread index (some (id, .returned value))
      processed := Function.update s.processed id (some value) } := by
  obtain ⟨worker, found, idle⟩ := inv.held index id _ place
  -- No wait can have come past a semaphore that is posted behind this stage only.
  have unread : s.Unread id worker := by
    refine (inv.ready id worker found).resolve_right ?_
    rw [show s.processed id = none from idle]
    simp
  have agrees : HandlePool.Agrees
      { s with processed := Function.update s.processed id (some value) } id worker
      (.returned value) := ⟨Function.update_self .., unread⟩
  have inv' := inv.works place found (fun other apart => Function.update_of_ne apart ..) agrees
    (.inl unread)
  rw [HandlePool.stores_self found] at inv'
  exact inv'

/-- So does the end of `complete_cb`. -/
theorem completeReturns (inv : ResultInv s) {index : Fin n} {id : Nat}
    (place : s.thread index = some (id, .completing)) :
    ResultInv { s with thread := Function.update s.thread index (some (id, .freeing)) } := by
  obtain ⟨worker, found, agrees⟩ := inv.held index id _ place
  have inv' := inv.works place found (fun _ _ => rfl)
    (show s.Agrees id worker .freeing from agrees) (inv.ready id worker found)
  rw [HandlePool.stores_self found] at inv'
  exact inv'

/-- A new worker is waited for by nobody. -/
theorem ceTpWorkerRegister (inv : ResultInv s) (completeCb : Bool) :
    ResultInv (s.ceTpWorkerRegister completeCb) where
  placed := by
    refine inv.placed.joins ?_ ?_
    · -- The identity of the new worker is in no queue and with no thread, as it was not allocated.
      intro member
      obtain ⟨-, worker, found⟩ := inv.queued s.allocated member
      exact absurd (inv.lt_allocated found) (Nat.lt_irrefl _)
    · intro index stage place
      obtain ⟨worker, found, -⟩ := inv.held index s.allocated stage place
      exact absurd (inv.lt_allocated found) (Nat.lt_irrefl _)
  queued id member := by
    rcases List.mem_append.mp member with old | new
    · obtain ⟨idle, worker, found⟩ := inv.queued id old
      refine ⟨idle, worker, ?_⟩
      exact (Function.update_of_ne (Nat.ne_of_lt (inv.lt_allocated found)) ..).trans found
    · rw [List.mem_singleton.mp new]
      exact ⟨(inv.fresh s.allocated (Nat.le_refl _)).2, _, Function.update_self ..⟩
  held index id stage place := by
    obtain ⟨worker, found, agrees⟩ := inv.held index id stage place
    have old : id ≠ s.allocated := Nat.ne_of_lt (inv.lt_allocated found)
    refine ⟨worker, (Function.update_of_ne old ..).trans found, ?_⟩
    cases stage <;> exact agrees
  ready id worker found := by
    by_cases same : id = s.allocated
    · subst same
      simp only [HandlePool.ceTpWorkerRegister, Function.update_self, Option.some.injEq] at found
      subst found
      refine .inl ⟨rfl, ?_⟩
      intro caller place
      -- Nobody has a handle that was not returned yet.
      exact absurd (inv.named caller s.allocated _ place) (Nat.lt_irrefl _)
    · exact inv.ready id worker ((Function.update_of_ne same _ _).symm.trans found)
  fresh id beyond := by
    have later : s.allocated < id := beyond
    have before := inv.fresh id (Nat.le_of_lt later)
    exact ⟨(Function.update_of_ne (Nat.ne_of_gt later) ..).trans before.1, before.2⟩
  named caller id stage place := Nat.lt_succ_of_lt (inv.named caller id stage place)

variable [DecidableEq θ]

/-- A call that goes on without coming past a semaphore keeps it. -/
theorem calls (inv : ResultInv s) (caller : Fin n ⊕ θ) {next : Option (Nat × HandleStage ρ)}
    (bound : ∀ id stage, next = some (id, stage) → id < s.allocated)
    (quiet : ∀ id, next ≠ some (id, .reading)) :
    ResultInv { s with caller := Function.update s.caller caller next } := by
  refine ⟨inv.placed, inv.queued, ?_, ?_, inv.fresh, ?_⟩
  · intro index id stage place
    obtain ⟨worker, found, agrees⟩ := inv.held index id stage place
    refine ⟨worker, found, ?_⟩
    -- Only the stage that is about to store speaks of the calls.
    cases stage with
    | returned value => exact ⟨agrees.1, agrees.2.calls caller (quiet id)⟩
    | _ => exact agrees
  · intro id worker found
    exact (inv.ready id worker found).imp_left fun unread => unread.calls caller (quiet id)
  · intro other id stage place
    by_cases same : other = caller
    · exact bound id stage (by simpa [same] using place)
    · exact inv.named other id stage (by simpa [same] using place)

/-- A wait that comes past the semaphore finds the result stored, when its worker is not freed. -/
theorem passes (inv : ResultInv s) {caller : Fin n ⊕ θ} {id : Nat} {stage : HandleStage ρ}
    (place : s.caller caller = some (id, stage))
    (posted : ∀ worker, s.heap id = some worker → worker.sem ≠ 0) :
    ResultInv { s with
      caller := Function.update s.caller caller (some (id, .reading))
      heap := Function.update s.heap id
        ((s.heap id).map fun worker => { worker with sem := worker.sem - 1 }) } := by
  -- The result of a worker that is still there was stored, so only the semaphore is counted down.
  have stored (worker : TpWorker ρ) (found : s.heap id = some worker) :=
    inv.settled found fun unread => posted worker found unread.1
  have unread (other : Nat) (worker : TpWorker ρ) (apart : other ≠ id)
      (before : s.Unread other worker) :
      HandlePool.Unread { s with
        caller := Function.update s.caller caller (some (id, .reading)) } other worker :=
    before.calls caller (by simpa using apart.symm)
  refine ⟨inv.placed, ?_, ?_, ?_, ?_, ?_⟩
  · intro other member
    obtain ⟨idle, worker, found⟩ := inv.queued other member
    by_cases same : other = id
    · subst same
      exact ⟨idle, { worker with sem := worker.sem - 1 }, by simp [found]⟩
    · exact ⟨idle, worker, by simpa [same] using found⟩
  · -- The thread of this worker is past its store, so its stage does not speak of waits.
    intro index other stage' place'
    obtain ⟨worker, found, agrees⟩ := inv.held index other stage' place'
    by_cases same : other = id
    · subst same
      refine ⟨{ worker with sem := worker.sem - 1 }, by simp [found], ?_⟩
      cases stage' with
      | returned value => exact absurd place' ((stored worker found).2 index value)
      | _ => exact agrees
    · refine ⟨worker, by simpa [same] using found, ?_⟩
      cases stage' with
      | returned value => exact ⟨agrees.1, unread other worker same agrees.2⟩
      | _ => exact agrees
  · intro other worker found
    by_cases same : other = id
    · subst same
      obtain ⟨worker', found', rfl⟩ : ∃ worker', s.heap other = some worker' ∧
          { worker' with sem := worker'.sem - 1 } = worker := by simpa using found
      exact .inr (stored worker' found').1
    · have before := inv.ready other worker (by simpa [same] using found)
      exact before.imp_left (unread other worker same)
  · intro other beyond
    by_cases same : other = id
    · simpa [same] using same ▸ inv.fresh other beyond
    · simpa [same] using inv.fresh other beyond
  · intro party other stage' place'
    by_cases same : party = caller
    · obtain ⟨rfl, -⟩ : id = other ∧ .reading = stage' := by simpa [same] using place'
      exact inv.named caller id stage place
    · exact inv.named party other stage' (by simpa [same] using place')

/-- A call that begins keeps it. -/
theorem enters (inv : ResultInv s) {caller : Fin n ⊕ θ} {id : Nat} {stage : HandleStage ρ}
    (early : stage ≠ .reading) {next : HandlePool n θ ρ}
    (taken : s.enters caller id stage = some next) : ResultInv next := by
  obtain ⟨⟨-, -, bound⟩, made⟩ := Option.ite_none_right_eq_some.mp taken
  cases made
  refine inv.calls caller ?_ ?_
  · intro other stage' same
    cases same
    exact bound
  · intro other same
    cases same
    exact early rfl

/-- So does each later step of a call. -/
theorem ceTpWorkerCall (inv : ResultInv s) {caller : Fin n ⊕ θ} {garbage : TpWorker ρ}
    {next : HandlePool n θ ρ} {events : List (HandleEvent ρ)}
    (taken : s.ceTpWorkerCall caller garbage = some (next, events)) : ResultInv next := by
  unfold HandlePool.ceTpWorkerCall at taken
  cases place : s.caller caller with
  | none => simp [place] at taken
  | some at_ =>
    obtain ⟨id, stage⟩ := at_
    simp only [place] at taken
    cases stage with
    | touching | returning value =>
      cases taken
      exact inv.calls caller (by simp) (by simp)
    -- The wait goes on only when the semaphore is posted.
    | waiting =>
      dsimp only at taken
      split at taken
      · cases taken
      · rename_i posted
        cases taken
        refine inv.passes place ?_
        intro worker found
        simpa [found] using posted
    | reading =>
      cases taken
      refine inv.calls caller ?_ (by simp)
      intro other stage' same
      cases same
      exact inv.named caller id _ place

/-- Every step keeps it. -/
theorem step (inv : ResultInv s) {action : HandleAction n θ ρ} {next : HandlePool n θ ρ}
    {events : List (HandleEvent ρ)}
    (taken : (handleMachine n θ ρ).step s action = some (next, events)) : ResultInv next := by
  -- Each step belongs to a caller of the pool or to one of its routines.
  cases action with
  | register caller completeCb =>
    obtain ⟨-, made⟩ := Option.ite_none_right_eq_some.mp taken
    cases made
    exact inv.ceTpWorkerRegister completeCb
  | touch caller id | wait caller id =>
    obtain ⟨_, stepped, made⟩ := Option.map_eq_some_iff.mp taken
    cases made
    exact inv.enters (by simp) stepped
  | call caller garbage => exact inv.ceTpWorkerCall taken
  | routine index =>
    obtain ⟨_, stepped, made⟩ := Option.map_eq_some_iff.mp taken
    cases made
    exact inv.routine stepped
  | processReturns index value =>
    simp only [handleMachine, HandlePool.processReturns] at taken
    split at taken
    · rename_i id place idle
      cases taken
      exact inv.processReturns value place
    · cases taken
  | completeReturns index =>
    obtain ⟨_, stepped, made⟩ := Option.map_eq_some_iff.mp taken
    cases made
    simp only [HandlePool.completeReturns] at stepped
    split at stepped
    · rename_i id place idle
      cases stepped
      exact inv.completeReturns place
    · cases stepped

end ResultInv

namespace HandlePool

variable {s : HandlePool n θ ρ}

/-- It stays so when nothing is freed and nothing is written over. -/
theorem ResultsKept.mono (kept : s.ResultsKept) {next : HandlePool n θ ρ}
    (calls : next.caller = s.caller) (heap : ∀ id, s.heap id ≠ none → next.heap id ≠ none)
    (processed : ∀ id value, s.processed id = some value → next.processed id = some value) :
    next.ResultsKept := by
  intro caller id stage place
  have before := kept caller id stage (calls ▸ place)
  cases stage with
  | touching | waiting | reading => exact heap id before
  | returning value => exact processed id value before

/-- A statement of a thread keeps it, but where it frees the worker of a call. -/
theorem ResultsKept.routine_iff (kept : s.ResultsKept) {index : Fin n} {next : HandlePool n θ ρ}
    (taken : s.ceTpRoutine index = some next) :
    next.ResultsKept ↔ s.HandleHeld (.routine index) := by
  cases ceTpRoutine_cases taken with
  | takes id others place first =>
    refine iff_of_true (kept.mono rfl (fun _ there => there) (fun _ _ same => same)) ?_
    simp only [HandleHeld, place]
  | states id worker after stage stage' place found statement =>
    refine iff_of_true (kept.mono rfl ?_ (fun _ _ same => same)) ?_
    · intro other there
      by_cases same : other = id <;> simp [stores, same, there]
    · cases stage with
      | reposted => cases statement
      | _ => simp only [HandleHeld, place]
  | unlinks id worker place found =>
    refine iff_of_true (kept.mono rfl ?_ (fun _ _ same => same)) ?_
    · intro other there
      by_cases same : other = id <;> simp [stores, same, there]
    · simp only [HandleHeld, place]
  | frees id worker place found =>
    -- Freeing takes the handle from each call that still needs it.
    simp only [HandleHeld, place, uses_eq_false_iff]
    constructor
    · intro after caller stage call
      have there := after caller id stage call
      cases stage with
      | touching | waiting | reading => exact absurd (Function.update_self ..) there
      | returning value => rfl
    · intro unused caller other stage call
      have before := kept caller other stage call
      cases stage with
      | touching | waiting | reading =>
        have apart : other ≠ id := by
          rintro rfl
          cases unused caller _ call
        simpa [CallKept, apart] using before
      | returning value => exact before

variable [DecidableEq θ]

/-- A call that goes on keeps it just when it has its handle, and the right result, as it does. -/
theorem ResultsKept.calls_iff (kept : s.ResultsKept) (caller : Fin n ⊕ θ)
    (next : Option (Nat × HandleStage ρ)) :
    ResultsKept { s with caller := Function.update s.caller caller next } ↔
      ∀ id stage, next = some (id, stage) → s.CallKept id stage := by
  constructor
  · intro after id stage same
    have call := after caller id stage (by simp [same])
    cases stage <;> exact call
  · intro goes other id stage place
    have before : s.CallKept id stage := by
      by_cases same : other = caller
      · exact goes id stage (by simpa [same] using place)
      · exact kept other id stage (by simpa [same] using place)
    cases stage <;> exact before

/-- A call that begins keeps it just when its handle is not freed. -/
theorem ResultsKept.enters_iff (kept : s.ResultsKept) {caller : Fin n ⊕ θ} {id : Nat}
    {stage : HandleStage ρ} (early : stage.usesHandle = true) {next : HandlePool n θ ρ}
    (taken : s.enters caller id stage = some next) : next.ResultsKept ↔ s.heap id ≠ none := by
  obtain ⟨-, made⟩ := Option.ite_none_right_eq_some.mp taken
  cases made
  have there : s.CallKept id stage ↔ s.heap id ≠ none := by
    cases stage with
    | touching | waiting | reading => exact Iff.rfl
    | returning value => cases early
  rw [kept.calls_iff, ← there]
  constructor
  · intro goes
    exact goes id stage rfl
  · intro held other stage' same
    cases same
    exact held

/-- A call on a handle that is not freed keeps it, since what it reads is the result. -/
theorem ResultsKept.call (kept : s.ResultsKept) (inv : ResultInv s) {caller : Fin n ⊕ θ}
    {garbage : TpWorker ρ} {next : HandlePool n θ ρ} {events : List (HandleEvent ρ)}
    (taken : s.ceTpWorkerCall caller garbage = some (next, events)) : next.ResultsKept := by
  unfold ceTpWorkerCall at taken
  cases place : s.caller caller with
  | none => simp [place] at taken
  | some at_ =>
    obtain ⟨id, stage⟩ := at_
    simp only [place] at taken
    have now := kept caller id stage place
    cases stage with
    | touching | returning value =>
      cases taken
      exact (kept.calls_iff caller none).mpr (by simp)
    | waiting =>
      dsimp only at taken
      split at taken
      · cases taken
      · cases taken
        -- Counting the semaphore down frees nothing.
        have reads := (kept.calls_iff caller (some (id, .reading))).mpr
          (by simpa [CallKept] using now)
        refine reads.mono rfl ?_ (fun _ _ same => same)
        intro other there
        by_cases same : other = id
        · simpa [same] using same ▸ there
        · simpa [same] using there
    | reading =>
      cases taken
      obtain ⟨worker, found⟩ := Option.ne_none_iff_exists'.mp now
      -- Whoever has come past the semaphore reads behind the store of the result.
      have stored := (inv.settled found fun unread => unread.2 caller place).1
      refine (kept.calls_iff caller _).mpr ?_
      intro other stage same
      cases same
      simpa [CallKept, found] using stored

/-- An action keeps it just when it meets the condition on handles. -/
theorem ResultsKept.step_iff (kept : s.ResultsKept) (inv : ResultInv s)
    {action : HandleAction n θ ρ} {next : HandlePool n θ ρ} {events : List (HandleEvent ρ)}
    (taken : (handleMachine n θ ρ).step s action = some (next, events)) :
    next.ResultsKept ↔ s.HandleHeld action := by
  cases action with
  | register caller completeCb =>
    obtain ⟨-, made⟩ := Option.ite_none_right_eq_some.mp taken
    cases made
    refine iff_of_true (kept.mono rfl ?_ (fun _ _ same => same)) trivial
    intro id there
    by_cases same : id = s.allocated <;> simp [ceTpWorkerRegister, same, there]
  | touch caller id | wait caller id =>
    obtain ⟨_, stepped, made⟩ := Option.map_eq_some_iff.mp taken
    cases made
    exact kept.enters_iff rfl stepped
  | call caller garbage => exact iff_of_true (kept.call inv taken) trivial
  | routine index =>
    obtain ⟨_, stepped, made⟩ := Option.map_eq_some_iff.mp taken
    cases made
    exact kept.routine_iff stepped
  | processReturns index value =>
    simp only [handleMachine, processReturns] at taken
    split at taken
    · rename_i id place idle
      cases taken
      obtain ⟨worker, found, running⟩ := inv.held index id _ place
      refine iff_of_true (kept.mono rfl (fun _ there => there) ?_) trivial
      intro other result before
      -- What `process_cb` returns now, it has not returned before.
      have apart : other ≠ id := by
        rintro rfl
        rw [show s.processed other = none from running] at before
        cases before
      simpa [apart] using before
    · cases taken
  | completeReturns index =>
    obtain ⟨_, stepped, made⟩ := Option.map_eq_some_iff.mp taken
    cases made
    simp only [completeReturns] at stepped
    split at stepped
    · cases stepped
      exact iff_of_true (kept.mono rfl (fun _ there => there) (fun _ _ same => same)) trivial
    · cases stepped

/-- A call that stands at a freed handle uses it next, and may find anything there. -/
theorem uses_freed (caller : Fin n ⊕ θ) {id : Nat} {stage : HandleStage ρ}
    (place : s.caller caller = some (id, stage)) (uses : stage.usesHandle = true)
    (freed : s.heap id = none) (garbage : TpWorker ρ) (posted : garbage.sem ≠ 0) :
    ∃ next events, (handleMachine n θ ρ).step s (.call caller garbage) = some (next, events) := by
  simp only [handleMachine, ceTpWorkerCall, place]
  cases stage with
  | touching | reading => exact ⟨_, _, rfl⟩
  | waiting => exact ⟨_, _, by simp [freed, posted]; exact ⟨rfl, rfl⟩⟩
  | returning value => cases uses

end HandlePool

/--
Every call has its handle and returns its result in exactly the runs that hold on to the handles.

The calls are those of any threads on any handles, beside any number of pool threads and any values
that the callbacks return.
-/
theorem results_kept_iff (n : Nat) (θ ρ : Type*) [DecidableEq θ]
    {actions : List (HandleAction n θ ρ)} {last : HandlePool n θ ρ} {trace : List (HandleEvent ρ)}
    (ran : (handleMachine n θ ρ).exec (HandlePool.create n θ ρ) actions = some (last, trace)) :
    (handleMachine n θ ρ).Along HandlePool.ResultsKept (HandlePool.create n θ ρ) actions ↔
      (handleMachine n θ ρ).Meets HandlePool.HandleHeld (HandlePool.create n θ ρ) actions := by
  refine (handleMachine n θ ρ).exec_along_iff_meets ResultInv HandlePool.ResultsKept
    (ResultInv.create n θ ρ) ?_ ?_ ?_ ran
  · intro caller id stage place
    cases place
  · intro s action next events inv taken
    exact inv.step taken
  · intro s action next events inv kept taken
    exact kept.step_iff inv taken

instance [Fintype θ] (s : HandlePool n θ ρ) :
    (action : HandleAction n θ ρ) → Decidable (s.HandleHeld action)
  | .touch _ id | .wait _ id =>
    match found : s.heap id with
    | none => isFalse fun there => there found
    | some worker => isTrue (by simp [HandlePool.HandleHeld, found])
  | .routine index =>
    match place : s.thread index with
    | some (id, .reposted) =>
      decidable_of_iff (∀ caller, s.uses caller id = false)
        (by simp only [HandlePool.HandleHeld, place])
    | none | some (_, .taken) | some (_, .processing) | some (_, .returned _) | some (_, .stored)
    | some (_, .completed) | some (_, .posted) | some (_, .completing) | some (_, .freeing)
    | some (_, .unlinked) => isTrue (by simp only [HandlePool.HandleHeld, place])
  | .register _ _ | .call _ _ | .processReturns _ _ | .completeReturns _ => isTrue trivial

/-- A thread registers a job and waits for it, up to the post of its semaphore. -/
def waitForJob {n : Nat} {θ : Type} (index : Fin n) (caller : θ) : List (HandleAction n θ Nat) :=
  [.register (.inr caller) false, .routine index, .routine index, .wait (.inr caller) 0,
    .processReturns index (some 7), .routine index, .routine index, .routine index]

/-- The rest of the wait, where a freed handle reads as garbage. -/
def finishWait {n : Nat} {θ : Type} (caller : θ) (garbage : TpWorker Nat) :
    List (HandleAction n θ Nat) :=
  [.call (.inr caller) garbage, .call (.inr caller) garbage]

/-- The rest of the routine, up to where the worker is freed. -/
def finishRoutine {n : Nat} {θ : Type} (index : Fin n) : List (HandleAction n θ Nat) :=
  [.routine index, .routine index, .routine index, .routine index]

/-- A freed worker whose memory was used for something else. -/
def reusedWorker : TpWorker Nat where
  completeCb := false
  result := none
  state := .idle
  sem := 1

/-- A wait that reads its result before the routine goes on returns it. -/
theorem results_kept_iff_in_time :
    (handleMachine 1 Unit Nat).Along HandlePool.ResultsKept (HandlePool.create 1 Unit Nat)
      (waitForJob 0 () ++ finishWait () reusedWorker ++ finishRoutine 0) :=
  (results_kept_iff 1 Unit Nat
    (show (handleMachine 1 Unit Nat).exec (HandlePool.create 1 Unit Nat)
      (waitForJob 0 () ++ finishWait () reusedWorker ++ finishRoutine 0) = _ from rfl)).mpr
    (by decide)

/-- A wait for a job that the routine frees first returns what was put in its place. -/
theorem not_results_kept_freed_first : ∃ last trace,
    (handleMachine 1 Unit Nat).exec (HandlePool.create 1 Unit Nat)
      (waitForJob 0 () ++ finishRoutine 0 ++ finishWait () reusedWorker) = some (last, trace) ∧
    last.caller (.inr ()) = some (0, .returning none) ∧ last.processed 0 = some (some 7) ∧
    ¬ last.ResultsKept := by
  refine ⟨_, _, rfl, rfl, rfl, ?_⟩
  intro kept
  cases kept (.inr ()) 0 (.returning none) rfl

end Cevent
