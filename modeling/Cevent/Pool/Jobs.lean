import Cevent.Pool.Places

/-! What becomes of every job of a pool: it runs at most once, and is freed exactly once. -/

namespace Cevent

open Interleaving

/-- The destruction is in its clean-up, or has returned. -/
def DestroyPc.cleaning : DestroyPc → Bool
  | .notCalled | .draining | .aborting | .joining _ => false
  | .cleanup | .returned => true

/-- How the threads, the queue and the destruction of a pool stand to each other. -/
structure StageInv {n : Nat} (tp : CeTp n) (trace : List PoolEvent) : Prop where
  abort : tp.pool.abort = tp.destroyer.aborted
  exited : ∀ index, tp.thread index = .exited → tp.pool.abort = true
  joined : ∀ index : Fin n, index < tp.destroyer.joined n → tp.thread index = .exited
  empty : tp.destroyer = .returned → tp.pool.workerQueue = []
  cleaned : tp.destroyer.cleaning = false → itemsAt .freedByDestroy trace = []
  /-- What was registered was taken out by the threads first and by the clean-up then, or is queued. -/
  order : itemsAt .removed trace ++ itemsAt .freedByDestroy trace ++ tp.pool.workerQueue =
    itemsAt .registered trace

namespace StageInv

variable {n : Nat} {tp : CeTp n} {trace : List PoolEvent}

/-- A new pool has threads that run and nothing else. -/
theorem create (n : Nat) : StageInv (CeTp.create n) [] where
  abort := rfl
  exited := by simp [CeTp.create]
  joined := by simp [CeTp.create, DestroyPc.joined]
  empty := by simp [CeTp.create]
  cleaned := fun _ => rfl
  order := rfl

/-- While a thread runs, the clean-up has not begun. -/
theorem not_cleaning (stage : StageInv tp trace) {index : Fin n}
    (running : tp.thread index ≠ .exited) : tp.destroyer.cleaning = false := by
  -- The clean-up begins when all threads are joined, and a joined thread has exited.
  have early : ¬ index < tp.destroyer.joined n := fun late => running (stage.joined index late)
  cases at_ : tp.destroyer with
  | notCalled | draining | aborting | joining => rfl
  | cleanup | returned =>
    rw [at_] at early
    exact absurd index.isLt early

/-- A thread that runs may move on, and may exit when `abort` is set. -/
theorem goto (stage : StageInv tp trace) {index : Fin n} {pc : RoutinePc}
    (running : tp.thread index ≠ .exited) (leaves : pc = .exited → tp.pool.abort = true) :
    StageInv (tp.goto index pc) trace where
  abort := stage.abort
  exited := by
    intro other out
    rw [CeTp.goto_thread] at out
    -- Only the thread that moves can have exited anew.
    split at out
    · exact leaves out
    · exact stage.exited other out
  joined := by
    intro other late
    have out := stage.joined other late
    -- A joined thread is not the one that moves.
    rw [CeTp.goto_thread, if_neg]
    · exact out
    · rintro rfl
      exact running out
  empty := stage.empty
  cleaned := stage.cleaned
  order := stage.order

/-- The queue may change in step with the trace. -/
theorem requeue (stage : StageInv tp trace) {next : CeTp n} {events : List PoolEvent}
    (thread : next.thread = tp.thread) (destroyer : next.destroyer = tp.destroyer)
    (abort : next.pool.abort = tp.pool.abort)
    (empty : tp.destroyer = .returned → next.pool.workerQueue = [])
    (cleaned : tp.destroyer.cleaning = false → itemsAt .freedByDestroy events = [])
    (order : itemsAt .removed (trace ++ events) ++ itemsAt .freedByDestroy (trace ++ events) ++
      next.pool.workerQueue = itemsAt .registered (trace ++ events)) :
    StageInv next (trace ++ events) where
  abort := by rw [abort, destroyer, stage.abort]
  exited := by
    rw [thread, abort]
    exact stage.exited
  joined := by
    rw [thread, destroyer]
    exact stage.joined
  empty := by
    rw [destroyer]
    exact empty
  -- Before the destroyer cleans up, nothing is freed by it.
  cleaned := by
    rw [destroyer]
    intro early
    rw [itemsAt_append, stage.cleaned early, cleaned early]
    rfl
  order := order

/-- Events of callbacks say nothing about the queue. -/
theorem callback (stage : StageInv tp trace) {worker : CeTpWorker} {event : WorkerEvent}
    (kind : event.isCallback = true) : StageInv tp (trace ++ [(worker, event)]) := by
  -- None of the labels that the invariant looks at is a callback.
  have absent : ∀ label : WorkerEvent, label.isCallback = false → event ≠ label := by
    intro label other same
    rw [← same, kind] at other
    cases other
  refine stage.requeue rfl rfl rfl stage.empty ?_ ?_
  · simp [absent .freedByDestroy rfl]
  · simp only [itemsAt_append, itemsAt_singleton, absent .removed rfl, absent .freedByDestroy rfl,
      absent .registered rfl, if_false, List.append_nil]
    exact stage.order

/-- The thread that takes the first worker of the queue takes the next one in order of registration. -/
theorem take (stage : StageInv tp trace) {index : Fin n} {worker : CeTpWorker}
    {others : List CeTpWorker} (running : tp.thread index ≠ .exited)
    (first : tp.pool.workerQueue = worker :: others) :
    StageInv { tp with pool := { tp.pool with workerQueue := others } }
      (trace ++ [(worker, .removed)]) := by
  have early := stage.not_cleaning running
  refine stage.requeue rfl rfl rfl ?_ (fun _ => rfl) ?_
  · intro returned
    rw [returned] at early
    cases early
  · -- Nothing was cleaned up yet, so the worker comes right behind those removed before.
    have order := stage.order
    rw [first, stage.cleaned early] at order
    simpa [stage.cleaned early] using order

/-- A worker that a thread frees is not in the queue. -/
theorem free (stage : StageInv tp trace) {worker : CeTpWorker}
    (absent : worker ∉ tp.pool.workerQueue) :
    StageInv { tp with pool := { tp.pool with workerQueue := tp.pool.workerQueue.erase worker } }
      (trace ++ [(worker, .freedByRoutine)]) := by
  rw [List.erase_of_not_mem absent]
  refine stage.requeue rfl rfl rfl stage.empty (fun _ => rfl) ?_
  simpa using stage.order

/-- A new worker joins the end of the queue. -/
theorem insert (stage : StageInv tp trace) (early : tp.destroyer.cleaning = false)
    (completeCb : Bool) :
    StageInv (tp.insert completeCb).1 (trace ++ (tp.insert completeCb).2) := by
  refine stage.requeue rfl rfl rfl ?_ (fun _ => rfl) ?_
  · -- There was no return yet, since the clean-up has not even begun.
    intro returned
    rw [returned] at early
    cases early
  · have order := stage.order
    simp only [CeTp.insert, itemsAt_append, WorkPool.insertTail_workerQueue]
    -- The new worker stands last among those registered and those queued.
    rw [← order]
    simp

/-- The clean-up frees the first worker of the queue. -/
theorem clean (stage : StageInv tp trace) {worker : CeTpWorker} {others : List CeTpWorker}
    (place : tp.destroyer = .cleanup) (first : tp.pool.workerQueue = worker :: others) :
    StageInv { tp with pool := { tp.pool with workerQueue := others } }
      (trace ++ [(worker, .freedByDestroy)]) := by
  refine stage.requeue rfl rfl rfl ?_ ?_ ?_
  · intro returned
    rw [place] at returned
    cases returned
  · intro early
    rw [place] at early
    cases early
  · -- The threads take no more, so the clean-up goes on with the order of registration.
    have order := stage.order
    rw [first] at order
    simpa using order

/-- The destruction may go on, with the threads it has joined exited. -/
theorem redirect (stage : StageInv tp trace) {destroyer : DestroyPc}
    (abort : tp.pool.abort = destroyer.aborted)
    (joined : ∀ index : Fin n, index < destroyer.joined n → tp.thread index = .exited)
    (empty : destroyer = .returned → tp.pool.workerQueue = [])
    (cleaned : destroyer.cleaning = false → tp.destroyer.cleaning = false) :
    StageInv { tp with destroyer := destroyer } trace where
  abort := abort
  exited := stage.exited
  joined := joined
  empty := empty
  cleaned := fun early => stage.cleaned (cleaned early)
  order := stage.order

/-- The call of `ce_tp_destroy` sets nothing in the pool yet. -/
theorem called (stage : StageInv tp trace) (open_ : tp.destroyer = .notCalled) (type : CeTpKill) :
    StageInv { tp with destroyer := if type = .wait then .draining else .aborting } trace := by
  have abort := stage.abort
  rw [open_] at abort
  -- Both ways of destruction begin before `abort` is set and before any thread is joined.
  refine stage.redirect ?_ ?_ ?_ (fun _ => by rw [open_]; rfl)
  · cases type <;> exact abort
  · cases type <;> simp [DestroyPc.joined]
  · cases type <;> simp

/-- Setting `abort` begins the joining of the threads. -/
theorem aborts (stage : StageInv tp trace) (place : tp.destroyer = .aborting) :
    StageInv { tp with pool := { tp.pool with abort := true }, destroyer := .joining 0 } trace where
  abort := rfl
  -- From here on a thread may exit at any time.
  exited := fun _ _ => rfl
  joined := by simp [DestroyPc.joined]
  empty := by simp
  cleaned := fun _ => stage.cleaned (by rw [place]; rfl)
  order := stage.order

/-- A thread that has exited is joined. -/
theorem joins (stage : StageInv tp trace) {index : Fin n} (place : tp.destroyer = .joining index)
    (exited : tp.thread index = .exited) :
    StageInv { tp with destroyer := .joining (index + 1) } trace := by
  have abort := stage.abort
  rw [place] at abort
  refine stage.redirect abort ?_ (by simp) (fun _ => by rw [place]; rfl)
  intro other late
  -- The threads joined now are those joined before and this one.
  rcases Nat.lt_succ_iff_lt_or_eq.mp late with before | same
  · exact stage.joined other (by rw [place]; exact before)
  · rw [Fin.ext same]
    exact exited

/-- When all threads are joined, the clean-up begins. -/
theorem joinsAll (stage : StageInv tp trace) {index : Nat} (place : tp.destroyer = .joining index)
    (all : n ≤ index) : StageInv { tp with destroyer := .cleanup } trace := by
  have abort := stage.abort
  rw [place] at abort
  refine stage.redirect abort ?_ (by simp) (fun early => by cases early)
  intro other late
  exact stage.joined other (by rw [place]; exact Nat.lt_of_lt_of_le late all)

/-- Every step keeps them in line. -/
theorem step (stage : StageInv tp trace) {place : CeTpWorker → Place n}
    (placed : Placed tp trace place) {type : CeTpKill} {action : PoolAction n} {next : CeTp n}
    {events : List PoolEvent} (move : PoolMove type tp action next events) :
    StageInv next (trace ++ events) := by
  cases move with
  -- The threads change the queue first and move on then.
  | stay =>
    rw [List.append_nil]
    exact stage
  | turn index pc running on worker life fits =>
    rw [List.append_nil]
    exact stage.goto running (fun out => absurd out on)
  | leave index running idle aborted drained =>
    rw [List.append_nil]
    exact stage.goto running (fun _ => aborted)
  | callback index pc worker event kind holds keeps life fits =>
    -- A thread that holds a worker has not exited.
    refine (stage.callback kind).goto ?_ ?_
    · intro out
      simp [out, RoutinePc.worker] at holds
    · intro out
      simp [out, RoutinePc.worker] at keeps
  | take index worker others running idle first =>
    exact (stage.take running first).goto running (by simp)
  | free index worker at_ =>
    have holds : (tp.thread index).worker = some worker := by rw [at_]; rfl
    exact (stage.free (placed.not_mem_of_held holds)).goto (by simp [at_]) (by simp)
  | registerOutside completeCb open_ => exact stage.insert (by rw [open_]; rfl) completeCb
  | registerInside index completeCb callback worker at_ =>
    have running : tp.thread index ≠ .exited := by simp [at_]
    exact (stage.insert (stage.not_cleaning running) completeCb).goto running (by simp)
  -- The destruction leaves the queue alone until its clean-up.
  | call open_ =>
    rw [List.append_nil]
    exact stage.called open_ type
  | drained at_ empty =>
    have abort := stage.abort
    rw [at_] at abort
    rw [List.append_nil]
    exact stage.redirect abort (by simp [DestroyPc.joined]) (by simp) (fun _ => by rw [at_]; rfl)
  | abort at_ =>
    rw [List.append_nil]
    exact stage.aborts at_
  | join index at_ exited =>
    rw [List.append_nil]
    exact stage.joins at_ exited
  | joined index at_ all =>
    rw [List.append_nil]
    exact stage.joinsAll at_ all
  | clean worker others at_ first => exact stage.clean at_ first
  | done at_ empty =>
    have abort := stage.abort
    have joined := stage.joined
    rw [at_] at abort joined
    rw [List.append_nil]
    exact stage.redirect abort joined (fun _ => empty) (fun early => by cases early)

end StageInv

/-- Every worker is in its place, and the pool is in line with its destruction. -/
structure PoolInv {n : Nat} (tp : CeTp n) (trace : List PoolEvent) : Prop where
  placed : ∃ place, Placed tp trace place
  stage : StageInv tp trace

namespace PoolInv

variable {n : Nat} {tp : CeTp n} {trace : List PoolEvent}

/-- A new pool. -/
theorem create (n : Nat) : PoolInv (CeTp.create n) [] :=
  ⟨⟨_, .create n⟩, .create n⟩

/-- Every step is one of the moves of a pool. -/
theorem move (inv : PoolInv tp trace) {type : CeTpKill} {action : PoolAction n} {next : CeTp n}
    {events : List PoolEvent}
    (taken : (poolMachine n type).step tp action = some (next, events)) :
    PoolMove type tp action next events := by
  obtain ⟨place, placed⟩ := inv.placed
  exact .of_step placed.fits taken

/-- Every step keeps the workers in their places. -/
theorem step (inv : PoolInv tp trace) {type : CeTpKill} {action : PoolAction n} {next : CeTp n}
    {events : List PoolEvent}
    (taken : (poolMachine n type).step tp action = some (next, events)) :
    PoolInv next (trace ++ events) := by
  have move := inv.move taken
  obtain ⟨place, placed⟩ := inv.placed
  exact ⟨placed.step move, inv.stage.step placed move⟩

/-- Every run of a new pool does. -/
theorem run {type : CeTpKill} {actions : List (PoolAction n)} {last : CeTp n}
    (ran : (poolMachine n type).exec (CeTp.create n) actions = some (last, trace)) :
    PoolInv last trace := by
  -- The two parts hold of a new pool, and each step keeps both.
  refine (poolMachine n type).exec_invariant PoolInv (.create n) ?_ ran
  intro tp before action next events inv taken
  exact inv.step taken

/-- When the destruction has returned, every worker has a whole life or none. -/
theorem returned (inv : PoolInv tp trace) (returned : tp.destroyer = .returned)
    (worker : CeTpWorker) :
    history worker trace = [] ∨ history worker trace = worker.ranLife ∨
      history worker trace = cleanedLife := by
  obtain ⟨place, placed⟩ := inv.placed
  refine placed.life_of_gone ?_ ?_
  · -- All threads were joined, so none of them holds a worker.
    intro index
    rw [inv.stage.joined index (by rw [returned]; exact index.isLt)]
    rfl
  · -- The clean-up has emptied the queue.
    rw [inv.stage.empty returned]
    exact List.not_mem_nil

end PoolInv

/-- The life so far of what a thread holds is the beginning of the life of a worker that ran. -/
theorem RoutinePc.life_prefix {pc : RoutinePc} {worker : CeTpWorker}
    (holds : pc.worker = some worker) (fits : pc.Fits) : pc.life <+: worker.ranLife := by
  -- Each place tells a longer part of the one life that leads through all of them.
  cases pc with
  | loopTest | lock | waiting | exited => cases holds
  | taken | processed =>
    cases holds
    simp [life, CeTpWorker.ranLife, CeTpWorker.calledLife, processedLife]
  | freeing =>
    cases holds
    exact List.prefix_append _ _
  | calling callback =>
    cases holds
    cases callback with
    | process => simp [life, CeTpWorker.ranLife, CeTpWorker.calledLife, processedLife]
    | complete =>
      have complete : worker.completeCb = true := fits
      simp [life, CeTpWorker.ranLife, CeTpWorker.calledLife, complete]

/-- The history of a worker is the beginning of a life that ends in one of the two ways. -/
theorem PoolInv.history_prefix {n : Nat} {tp : CeTp n} {trace : List PoolEvent}
    (inv : PoolInv tp trace) (worker : CeTpWorker) :
    history worker trace <+: worker.ranLife ∨ history worker trace <+: cleanedLife := by
  obtain ⟨place, placed⟩ := inv.placed
  rw [placed.life worker]
  -- The place of the worker tells how far it has come, and on which of the two ways.
  cases at_ : place worker with
  | unregistered => exact .inl List.nil_prefix
  | queued => exact .inr ⟨[.freedByDestroy], rfl⟩
  | held index =>
    exact .inl (RoutinePc.life_prefix ((placed.held worker index).mpr at_) (placed.fits index))
  | ran => exact .inl (List.prefix_refl _)
  | cleaned => exact .inr (List.prefix_refl _)

/-- Jobs are executed in the order of their registration, and the callbacks of each at most once. -/
structure RunsOnce (trace : List PoolEvent) : Prop where
  /-- Those taken out for execution are the first of those registered. -/
  inOrder : itemsAt .removed trace <+: itemsAt .registered trace
  process : ∀ worker, trace.count (worker, .processCalled) ≤ 1
  complete : ∀ worker, trace.count (worker, .completeCalled) ≤ 1
  completeAfter : ∀ worker before after, trace = before ++ (worker, .completeCalled) :: after →
    (worker, .processReturned) ∈ before

/-- Each registered job was freed once: by its routine when it ran, and by `ce_tp_destroy` when not. -/
def FreedOnce (trace : List PoolEvent) : Prop :=
  ∀ worker, (worker, .registered) ∈ trace →
    trace.count (worker, .freedByRoutine) =
        (if (worker, .processCalled) ∈ trace then 1 else 0) ∧
      trace.count (worker, .freedByDestroy) =
        (if (worker, .processCalled) ∈ trace then 0 else 1)

/-- Nothing happens twice in the life of a worker that ran. -/
theorem CeTpWorker.nodup_ranLife (worker : CeTpWorker) : worker.ranLife.Nodup := by
  cases complete : worker.completeCb <;>
    simp [ranLife, calledLife, processedLife, complete]

/-- Nothing happens twice to a worker. -/
theorem PoolInv.count_le_one {n : Nat} {tp : CeTp n} {trace : List PoolEvent}
    (inv : PoolInv tp trace) (worker : CeTpWorker) (event : WorkerEvent) :
    trace.count (worker, event) ≤ 1 := by
  rw [← count_history]
  apply List.nodup_iff_count_le_one.mp
  -- Neither of the two lives has an event twice, so no beginning of them has.
  rcases inv.history_prefix worker with ran | cleaned
  · exact worker.nodup_ranLife.sublist ran.sublist
  · have nodup : cleanedLife.Nodup := by decide
    exact nodup.sublist cleaned.sublist

/-- What comes before `complete_cb` in a life holds all that leads to the return of `process_cb`. -/
theorem processReturned_mem {worker : CeTpWorker} {before after : List WorkerEvent}
    (life : before ++ .completeCalled :: after <+: worker.ranLife) : .processReturned ∈ before := by
  obtain ⟨rest, whole⟩ := life
  -- `complete_cb` stands behind all that leads to the return of `process_cb`.
  rw [CeTpWorker.ranLife, CeTpWorker.calledLife, List.append_assoc, List.append_assoc] at whole
  rcases List.append_eq_append_iff.mp whole with ⟨more, processed, next⟩ | ⟨more, longer, -⟩
  · cases more with
    | nil =>
      rw [List.append_nil] at processed
      rw [← processed]
      decide
    | cons event more =>
      -- `complete_cb` would be called before `process_cb` has returned.
      obtain ⟨rfl, -⟩ := List.cons.inj next
      have called : WorkerEvent.completeCalled ∈ processedLife := by simp [processed]
      exact absurd called (by decide)
  · rw [longer]
    exact List.mem_append_left _ (by decide)

/-- Every run of a pool takes jobs in order, and calls the callbacks of each job once at most. -/
theorem PoolInv.runsOnce {n : Nat} {tp : CeTp n} {trace : List PoolEvent}
    (inv : PoolInv tp trace) : RunsOnce trace where
  inOrder := by
    rw [← inv.stage.order, List.append_assoc]
    exact List.prefix_append _ _
  process := fun worker => inv.count_le_one worker .processCalled
  complete := fun worker => inv.count_le_one worker .completeCalled
  completeAfter := by
    intro worker before after split
    apply mem_history.mp
    -- What comes before the call in the trace is what comes before it in the life of the worker.
    have whole : history worker trace =
        history worker before ++ .completeCalled :: history worker after := by
      rw [split, history_append, history_cons_self]
    have life := inv.history_prefix worker
    rw [whole] at life
    rcases life with ran | cleaned
    · exact processReturned_mem ran
    · -- A worker that the clean-up frees is never called.
      have called : WorkerEvent.completeCalled ∈ cleanedLife := cleaned.subset (by simp)
      cases called with
      | tail _ called => cases called with
        | tail _ called => cases called

/-- Once the destruction has returned, each registered job has been freed once. -/
theorem PoolInv.freedOnce {n : Nat} {tp : CeTp n} {trace : List PoolEvent}
    (inv : PoolInv tp trace) (returned : tp.destroyer = .returned) : FreedOnce trace := by
  intro worker registered
  rw [← mem_history] at registered
  simp only [← count_history, ← mem_history]
  -- It has run and was freed by its routine, or has not and was freed by the clean-up.
  rcases inv.returned returned worker with none_ | ran | cleaned
  · rw [none_] at registered
    cases registered
  · rw [ran]
    cases complete : worker.completeCb <;>
      simp [CeTpWorker.ranLife, CeTpWorker.calledLife, processedLife, complete]
  · rw [cleaned]
    decide

/--
In every run of a pool, jobs run in order and at most once, and in the end each is freed once.

The pool may have any number of threads and be destroyed in either way, and callbacks may register jobs.
-/
theorem pool_runs_and_frees_once (n : Nat) (type : CeTpKill) (actions : List (PoolAction n))
    (last : CeTp n) (trace : List PoolEvent)
    (ran : (poolMachine n type).exec (CeTp.create n) actions = some (last, trace)) :
    RunsOnce trace ∧ (last.destroyer = .returned → FreedOnce trace) :=
  ⟨(PoolInv.run ran).runsOnce, (PoolInv.run ran).freedOnce⟩

/-- A thread runs a job that registers another one, and leaves it to the destruction. -/
def oneOfEach : List (PoolAction 1) :=
  [.register ⟨true, true⟩, .routine onlyThread, .routine onlyThread, .routine onlyThread,
    .callbackRegisters onlyThread ⟨true, false⟩, .routine onlyThread, .callbackReturns onlyThread,
    .routine onlyThread, .destroy, .destroyer, .callbackReturns onlyThread, .routine onlyThread,
    .routine onlyThread, .destroyer, .destroyer, .destroyer, .destroyer]

/-- One job is freed by the thread that ran it, and the other one by `ce_tp_destroy`. -/
theorem pool_runs_and_frees_once_one_of_each : ∃ last trace,
    (poolMachine 1 .immediate).exec (CeTp.create 1) oneOfEach = some (last, trace) ∧
      RunsOnce trace ∧ FreedOnce trace := by
  have stage : ((poolMachine 1 .immediate).exec (CeTp.create 1) oneOfEach).map (·.1.destroyer) =
      some .returned := by rfl
  obtain ⟨⟨last, trace⟩, ran, returned⟩ := Option.map_eq_some_iff.mp stage
  have settled := pool_runs_and_frees_once 1 .immediate oneOfEach last trace ran
  exact ⟨last, trace, ran, settled.1, settled.2 returned⟩

end Cevent
