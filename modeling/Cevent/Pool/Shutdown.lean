import Cevent.Pool.Jobs

/-! When a shutdown that waits has run every job that was registered. -/

namespace Cevent

open Interleaving

/--
A thread that finds `abort` set at its loop test leaves no job behind that nobody is left to run.

The queue is empty then, or some other thread has not exited.
-/
def LeavesNoJob {n : Nat} (tp : CeTp n) : PoolAction n → Prop
  -- A job registered after the last look at the queue may be left to a thread that leaves.
  | .routine index => tp.thread index = .loopTest → tp.pool.abort = true →
      tp.pool.workerQueue = [] ∨ ∃ other, other ≠ index ∧ tp.thread other ≠ .exited
  | .register _ | .callbackRegisters _ _ | .callbackReturns _ | .destroy | .destroyer => True

instance {n : Nat} (tp : CeTp n) : (action : PoolAction n) → Decidable (LeavesNoJob tp action)
  | .routine _ => inferInstanceAs (Decidable (_ → _ → _))
  | .register _ | .callbackRegisters _ _ | .callbackReturns _ | .destroy | .destroyer =>
    isTrue trivial

/-- Once the destruction is past its wait and no thread is left, every job was taken to be run. -/
def NoneLeft {n : Nat} (tp : CeTp n) (trace : List PoolEvent) : Prop :=
  tp.destroyer.pastDrain = true → (∀ index, tp.thread index = .exited) →
    ∀ worker, (worker, .registered) ∈ trace → (worker, .removed) ∈ trace

/-- Before that, there is nothing to say. -/
theorem NoneLeft.of_early {n : Nat} {tp : CeTp n} {trace : List PoolEvent}
    (early : tp.destroyer.pastDrain = false) : NoneLeft tp trace := by
  intro late
  rw [early] at late
  cases late

/-- While a thread runs, there is nothing to say either. -/
theorem NoneLeft.of_running {n : Nat} {tp : CeTp n} {trace : List PoolEvent} (index : Fin n)
    (running : tp.thread index ≠ .exited) : NoneLeft tp trace := by
  intro _ exited
  exact absurd (exited index) running

namespace PoolInv

variable {n : Nat} {tp : CeTp n} {trace : List PoolEvent}

/-- Before the clean-up, every job was taken just when the queue is empty. -/
theorem all_removed_iff (inv : PoolInv tp trace) (early : tp.destroyer.cleaning = false) :
    (∀ worker, (worker, .registered) ∈ trace → (worker, .removed) ∈ trace) ↔
      tp.pool.workerQueue = [] := by
  -- Nothing was cleaned up, so what was registered was removed or is queued.
  have order := inv.stage.order
  rw [inv.stage.cleaned early, List.append_nil] at order
  simp only [← mem_itemsAt, ← order, List.mem_append]
  constructor
  · intro all
    rw [List.eq_nil_iff_forall_not_mem]
    intro worker inside
    -- A worker in the queue has not been taken out of it.
    obtain ⟨place, placed⟩ := inv.placed
    have life := placed.life worker
    rw [(placed.queued worker).mp inside] at life
    have removed := mem_itemsAt.mp (all worker (.inr inside))
    rw [← mem_history, life] at removed
    simp [CeTp.lifeAt] at removed
  · intro empty worker registered
    rw [empty] at registered
    simpa using registered

/-- A thread that exits leaves no job just when none is queued, or another thread runs. -/
theorem noneLeft_exit_iff (inv : PoolInv tp trace) {index : Fin n}
    (running : tp.thread index ≠ .exited) (aborted : tp.pool.abort = true) :
    NoneLeft (tp.goto index .exited) trace ↔
      tp.pool.workerQueue = [] ∨ ∃ other, other ≠ index ∧ tp.thread other ≠ .exited := by
  have all := inv.all_removed_iff (inv.stage.not_cleaning running)
  -- `abort` is set after the wait for an empty queue only.
  have late : tp.destroyer.pastDrain = true := by
    have abort := inv.stage.abort
    rw [aborted] at abort
    cases at_ : tp.destroyer with
    | notCalled | draining | aborting =>
      rw [at_] at abort
      cases abort
    | joining | cleanup | returned => rfl
  constructor
  · intro none_
    by_contra left
    -- The last thread would leave with a job still in the queue.
    push Not at left
    obtain ⟨queued, alone⟩ := left
    refine queued (all.mp (none_ late ?_))
    intro other
    rw [CeTp.goto_thread]
    split
    · rfl
    · rename_i apart
      exact alone other apart
  · intro left
    rcases left with empty | ⟨other, apart, runs⟩
    · exact fun _ _ => all.mpr empty
    · -- Another thread is there, and nothing is decided yet.
      refine .of_running other ?_
      rw [CeTp.goto_thread, if_neg apart]
      exact runs

/-- A step that is no exit from the loop test leaves no job behind that was not left before. -/
theorem noneLeft_move (inv : PoolInv tp trace) {action : PoolAction n} {next : CeTp n}
    {events : List PoolEvent} (move : PoolMove .wait tp action next events)
    (elsewhere : ∀ index, action = .routine index → tp.thread index = .loopTest →
      tp.pool.abort = false) :
    NoneLeft next (trace ++ events) ↔ NoneLeft tp trace := by
  -- Where a thread runs before and after the step, neither side says anything.
  have running : ∀ index, tp.thread index ≠ .exited → next.thread index ≠ .exited →
      (NoneLeft next (trace ++ events) ↔ NoneLeft tp trace) :=
    fun index before after => iff_of_true (.of_running index after) (.of_running index before)
  -- What is left is decided by exits and by the look at the queue, not by what threads hold.
  cases move with
  | stay =>
    rw [List.append_nil]
  | turn index pc runs on worker life fits =>
    exact running index runs (by simpa [CeTp.goto_thread] using on)
  | callback index pc worker event kind holds keeps life fits =>
    refine running index ?_ ?_
    · intro out
      simp [out, RoutinePc.worker] at holds
    · rw [CeTp.goto_thread, if_pos rfl]
      intro out
      simp [out, RoutinePc.worker] at keeps
  | take index worker others runs idle first =>
    exact running index runs (by simp [CeTp.goto_thread])
  | leave index runs idle aborted drained =>
    rw [List.append_nil]
    -- With the mutex locked a thread leaves only on an empty queue.
    have away : tp.thread index ≠ .loopTest := by
      intro at_
      rw [elsewhere index rfl at_] at aborted
      cases aborted
    exact iff_of_true ((inv.noneLeft_exit_iff runs aborted).mpr (.inl (drained away)))
      (.of_running index runs)
  | free index worker at_ =>
    exact running index (by simp [at_]) (by simp [CeTp.goto_thread])
  | registerOutside completeCb open_ =>
    have early : tp.destroyer.pastDrain = false := by rw [open_]; rfl
    exact iff_of_true (.of_early early) (.of_early early)
  | registerInside index completeCb callback worker at_ =>
    exact running index (by simp [at_]) (by simp [CeTp.goto_thread])
  | call open_ => exact iff_of_true (.of_early rfl) (.of_early (by rw [open_]; rfl))
  | drained at_ empty =>
    rw [List.append_nil]
    -- The queue was seen empty in this very step.
    have all := (inv.all_removed_iff (by rw [at_]; rfl)).mpr empty
    exact iff_of_true (fun _ _ => all) (.of_early (by rw [at_]; rfl))
  | abort at_ | join index at_ exited | joined index at_ all | done at_ empty =>
    rw [List.append_nil]
    simp [NoneLeft, at_, DestroyPc.pastDrain]
  | clean worker others at_ first =>
    simp [NoneLeft, at_, DestroyPc.pastDrain]

/-- A step of a waiting shutdown leaves a job behind just when it breaks the condition. -/
theorem noneLeft_step (inv : PoolInv tp trace) {action : PoolAction n} {next : CeTp n}
    {events : List PoolEvent}
    (taken : (poolMachine n .wait).step tp action = some (next, events)) :
    NoneLeft next (trace ++ events) ↔ NoneLeft tp trace ∧ LeavesNoJob tp action := by
  by_cases leaving : ∃ index, action = .routine index ∧ tp.thread index = .loopTest ∧
      tp.pool.abort = true
  · -- The thread reads `abort` without the mutex, and does not look at the queue.
    obtain ⟨index, rfl, at_, aborted⟩ := leaving
    have running : tp.thread index ≠ .exited := by simp [at_]
    obtain ⟨rfl, rfl⟩ : tp.goto index .exited = next ∧ [] = events := by
      simpa [poolMachine, CeTp.ceTpRoutine, at_, aborted] using taken
    rw [List.append_nil, inv.noneLeft_exit_iff running aborted,
      and_iff_right (NoneLeft.of_running index running)]
    simp [LeavesNoJob, at_, aborted]
  · -- Any other step meets the condition and changes nothing about the jobs left.
    have elsewhere : ∀ index, action = .routine index → tp.thread index = .loopTest →
        tp.pool.abort = false := by
      intro index same at_
      by_contra aborted
      exact leaving ⟨index, same, at_, by simpa using aborted⟩
    have leaves : LeavesNoJob tp action := by
      cases action with
      | routine index =>
        intro at_ aborted
        rw [elsewhere index rfl at_] at aborted
        cases aborted
      | register | callbackRegisters | callbackReturns | destroy | destroyer => trivial
    rw [and_iff_left leaves]
    exact inv.noneLeft_move (inv.move taken) elsewhere

/-- When the destruction has returned, the jobs that were taken are those whose `process_cb` returned. -/
theorem processReturned_iff (inv : PoolInv tp trace) (returned : tp.destroyer = .returned)
    (worker : CeTpWorker) :
    (worker, .processReturned) ∈ trace ↔ (worker, .removed) ∈ trace := by
  rw [← mem_history, ← mem_history]
  -- The two events stand together in the life of a worker that ran, and in no other.
  rcases inv.returned returned worker with none_ | ran | cleaned
  · rw [none_]
    exact iff_of_false List.not_mem_nil List.not_mem_nil
  · rw [ran]
    simp [CeTpWorker.ranLife, CeTpWorker.calledLife, processedLife]
  · rw [cleaned]
    decide

end PoolInv

/--
A waiting shutdown has run every registered job just when its threads leave none behind.

Each thread that exits at its loop test must leave an empty queue or another thread.
-/
theorem waitingShutdown_runs_all_iff (n : Nat) (actions : List (PoolAction n)) (last : CeTp n)
    (trace : List PoolEvent)
    (ran : (poolMachine n .wait).exec (CeTp.create n) actions = some (last, trace))
    (returned : last.destroyer = .returned) :
    (∀ worker, (worker, .registered) ∈ trace → (worker, .processReturned) ∈ trace) ↔
      (poolMachine n .wait).Meets LeavesNoJob (CeTp.create n) actions := by
  have inv := PoolInv.run ran
  have exited : ∀ index, last.thread index = .exited :=
    fun index => inv.stage.joined index (by rw [returned]; exact index.isLt)
  -- Whether jobs are left over is decided step by step along the run.
  have left : NoneLeft last trace ↔ (poolMachine n .wait).Meets LeavesNoJob (CeTp.create n) actions := by
    refine (poolMachine n .wait).exec_iff_meets PoolInv NoneLeft (.create n) (.of_early rfl) ?_ ?_ ran
    · intro tp before action next events inv taken
      exact inv.step taken
    · intro tp before action next events inv taken
      exact inv.noneLeft_step taken
  have late : last.destroyer.pastDrain = true := by
    rw [returned]
    rfl
  rw [← left]
  simp only [inv.processReturned_iff returned]
  constructor
  · intro all _ _
    exact all
  · intro none_
    exact none_ late exited

/-- A job that is registered during the wait, and that the other thread still takes. -/
def registersLateTaken : List (PoolAction 2) :=
  [.register ⟨true, false⟩, .routine 0, .routine 0, .routine 0, .routine 1, .routine 1, .destroy,
    .destroyer, .callbackRegisters 0 ⟨true, false⟩, .routine 0, .destroyer, .callbackReturns 0,
    .routine 0, .routine 0, .routine 0, .routine 1, .routine 1, .callbackReturns 1, .routine 1,
    .routine 1, .routine 1, .destroyer, .destroyer, .destroyer, .destroyer]

/-- That shutdown has run both jobs. -/
theorem waitingShutdown_runs_all_taken : ∃ last trace,
    (poolMachine 2 .wait).exec (CeTp.create 2) registersLateTaken = some (last, trace) ∧
      ∀ worker, (worker, .registered) ∈ trace → (worker, .processReturned) ∈ trace := by
  have stage : ((poolMachine 2 .wait).exec (CeTp.create 2) registersLateTaken).map
      (·.1.destroyer) = some .returned := by rfl
  obtain ⟨⟨last, trace⟩, ran, returned⟩ := Option.map_eq_some_iff.mp stage
  have runs := waitingShutdown_runs_all_iff 2 registersLateTaken last trace ran returned
  exact ⟨last, trace, ran, runs.mpr (by decide)⟩

/-- A job that is registered after the queue was seen empty, by the only thread. -/
def registersLateLeft : List (PoolAction 1) :=
  [.register ⟨true, false⟩, .routine onlyThread, .routine onlyThread, .routine onlyThread,
    .destroy, .destroyer, .callbackRegisters onlyThread ⟨true, false⟩, .routine onlyThread,
    .destroyer, .callbackReturns onlyThread, .routine onlyThread, .routine onlyThread,
    .routine onlyThread, .destroyer, .destroyer, .destroyer, .destroyer]

/-- The thread finds `abort` set when it comes back, and the job is freed without having run. -/
theorem not_waitingShutdown_runs_all_left : ∃ last trace,
    (poolMachine 1 .wait).exec (CeTp.create 1) registersLateLeft = some (last, trace) ∧
      last.destroyer = .returned ∧
      ¬ ∀ worker, (worker, .registered) ∈ trace → (worker, .processReturned) ∈ trace := by
  refine ⟨_, _, rfl, rfl, ?_⟩
  intro all
  have ran := all { id := 1, completeCb := false } (by decide)
  exact absurd ran (by decide)

end Cevent
