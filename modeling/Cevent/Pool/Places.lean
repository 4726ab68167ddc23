import Cevent.Pool.Moves
import Mathlib.Data.List.Nodup

/-! How the steps of a pool bring each worker from one place to the next. -/

namespace Cevent

open Interleaving

/-- Only one thread moves. -/
theorem CeTp.goto_thread {n : Nat} (tp : CeTp n) (index other : Fin n) (pc : RoutinePc) :
    (tp.goto index pc).thread other = if other = index then pc else tp.thread other := by
  simp [goto, Function.update_apply]

@[simp] theorem CeTp.goto_pool {n : Nat} (tp : CeTp n) (index : Fin n) (pc : RoutinePc) :
    (tp.goto index pc).pool = tp.pool := rfl

/-- A thread without a worker has no life to tell of. -/
theorem RoutinePc.life_of_idle {pc : RoutinePc} (idle : pc.worker = none) : pc.life = [] := by
  -- The places without a worker are those outside the taking and the freeing.
  cases pc with
  | loopTest | lock | waiting | exited => rfl
  | taken | calling | processed | freeing => cases idle

namespace Placed

variable {n : Nat} {tp : CeTp n} {trace : List PoolEvent} {place : CeTpWorker → Place n}

/-- Every thread still fits when the one that moved does. -/
theorem fits_goto (placed : Placed tp trace place) {index : Fin n} {pc : RoutinePc}
    (fits : pc.Fits) : ∀ index', ((tp.goto index pc).thread index').Fits := by
  intro index'
  rw [CeTp.goto_thread]
  split
  · exact fits
  · exact placed.fits index'

/-- A thread that goes on with what it holds leaves every worker in its place. -/
theorem turn (placed : Placed tp trace place) {index : Fin n} {pc : RoutinePc}
    (worker : pc.worker = (tp.thread index).worker) (life : pc.life = (tp.thread index).life)
    (fits : pc.Fits) : Placed (tp.goto index pc) trace place where
  nodup := placed.nodup
  fresh := placed.fresh
  queued := placed.queued
  held := by
    intro other index'
    -- The thread that moves holds the same worker as before.
    rw [CeTp.goto_thread, ← placed.held other index']
    split
    · rename_i same
      rw [same, worker]
    · rfl
  life := by
    intro other
    rw [placed.life other]
    -- Only the life of a held worker depends on where its thread stands.
    cases place other with
    | unregistered | queued | ran | cleaned => rfl
    | held index' =>
      simp only [CeTp.lifeAt, CeTp.goto_thread]
      split
      · rename_i same
        rw [same, life]
      · rfl
  fits := placed.fits_goto fits

/-- A thread that holds one worker at most, before and after, moves on without the others. -/
theorem held_goto_of_ne {index : Fin n} {pc : RoutinePc} {worker : CeTpWorker}
    (before : ∀ other, other ≠ worker → (tp.thread index).worker ≠ some other)
    (after : ∀ other, other ≠ worker → pc.worker ≠ some other) :
    ∀ other, other ≠ worker → ∀ index',
      (((tp.goto index pc).thread index').worker = some other ↔
          (tp.thread index').worker = some other) ∧
        ((tp.thread index').worker = some other →
          ((tp.goto index pc).thread index').life = (tp.thread index').life) := by
  intro other apart index'
  rw [CeTp.goto_thread]
  split
  · rename_i same
    -- At this thread no other worker was or is held.
    rw [same]
    exact ⟨iff_of_false (after other apart) (before other apart),
      fun holds => absurd holds (before other apart)⟩
  · exact ⟨Iff.rfl, fun _ => rfl⟩

/-- A worker that has a place was allocated. -/
theorem allocated_of_place (placed : Placed tp trace place) {worker : CeTpWorker}
    (somewhere : place worker ≠ .unregistered) : worker.id < tp.allocated := by
  by_contra new
  exact somewhere (placed.fresh worker (Nat.not_lt.mp new))

/-- An event in the life of the worker that a thread holds leaves it with the thread. -/
theorem callback (placed : Placed tp trace place) {index : Fin n} {pc : RoutinePc}
    {worker : CeTpWorker} {event : WorkerEvent} (holds : (tp.thread index).worker = some worker)
    (keeps : pc.worker = some worker) (life : pc.life = (tp.thread index).life ++ [event])
    (fits : pc.Fits) :
    Placed (tp.goto index pc) (trace ++ [(worker, event)])
      (Function.update place worker (.held index)) := by
  have here := (placed.held worker index).mp holds
  -- A thread holds one worker, so it holds no other.
  have only : ∀ pc' : RoutinePc, pc'.worker = some worker →
      ∀ other, other ≠ worker → pc'.worker ≠ some other := by
    intro pc' holds' other apart same
    exact apart (Option.some.inj (same.symm.trans holds'))
  refine placed.moves placed.nodup (Nat.le_refl _) ?_ ?_ ?_ ?_ (fun _ _ => Iff.rfl)
    (held_goto_of_ne (only _ holds) (only _ keeps)) ?_ (placed.fits_goto fits)
  · exact placed.allocated_of_place (by simp [here])
  · exact iff_of_false (placed.not_mem_of_held holds) (by simp)
  · intro index'
    rw [CeTp.goto_thread]
    split
    · rename_i same
      simp [keeps, same]
    · rw [placed.held worker index', here]
  · -- The event is added at the end of the life that the thread tells of.
    have before := placed.life worker
    rw [here] at before
    simp [before, CeTp.lifeAt, CeTp.goto_thread, life]
  · intro other apart
    simp [history_cons_of_ne apart.symm]

/-- The first worker of the queue goes to the thread that takes it. -/
theorem take (placed : Placed tp trace place) {index : Fin n} {worker : CeTpWorker}
    {others : List CeTpWorker} (idle : (tp.thread index).worker = none)
    (first : tp.pool.workerQueue = worker :: others) :
    Placed ({ tp with pool := { tp.pool with workerQueue := others } }.goto index (.taken worker))
      (trace ++ [(worker, .removed)]) (Function.update place worker (.held index)) := by
  have inside : worker ∈ tp.pool.workerQueue := by simp [first]
  have here := (placed.queued worker).mp inside
  -- Behind its front, the queue has this worker no more.
  have nodup := placed.nodup
  rw [first, List.nodup_cons] at nodup
  refine placed.moves nodup.2 (Nat.le_refl _) ?_ ?_ ?_ ?_ ?_ (held_goto_of_ne ?_ ?_) ?_
    (placed.fits_goto trivial)
  · exact placed.allocated_of_place (by simp [here])
  · exact iff_of_false nodup.1 (by simp)
  · intro index'
    rw [CeTp.goto_thread]
    split
    · rename_i same
      simp [RoutinePc.worker, same]
    · -- Nobody held the worker while it was queued.
      rename_i apart
      have elsewhere := placed.held worker index'
      rw [here] at elsewhere
      exact iff_of_false (by simp [elsewhere]) (by simpa using Ne.symm apart)
  · -- A queued worker was registered, and is now taken out.
    have before := placed.life worker
    rw [here] at before
    simp [before, CeTp.lifeAt, CeTp.goto_thread, RoutinePc.life]
  · intro other apart
    simp [first, apart]
  · intro other apart
    simp [idle]
  · intro other apart same
    exact apart (Option.some.inj same).symm
  · intro other apart
    simp [history_cons_of_ne apart.symm]

/-- A worker that its thread frees has run. -/
theorem free (placed : Placed tp trace place) {index : Fin n} {worker : CeTpWorker}
    (at_ : tp.thread index = .freeing worker) :
    Placed ({ tp with pool := { tp.pool with
        workerQueue := tp.pool.workerQueue.erase worker } }.goto index .loopTest)
      (trace ++ [(worker, .freedByRoutine)]) (Function.update place worker .ran) := by
  have holds : (tp.thread index).worker = some worker := by rw [at_]; rfl
  have here := (placed.held worker index).mp holds
  have absent := placed.not_mem_of_held holds
  -- `ce_tp_worker_free` looks for the worker in the queue, and does not find it.
  rw [List.erase_of_not_mem absent]
  refine placed.moves placed.nodup (Nat.le_refl _) ?_ ?_ ?_ ?_ (fun _ _ => Iff.rfl)
    (held_goto_of_ne ?_ ?_) ?_ (placed.fits_goto trivial)
  · exact placed.allocated_of_place (by simp [here])
  · exact iff_of_false absent (by simp)
  · intro index'
    rw [CeTp.goto_thread]
    split
    · simp [RoutinePc.worker]
    · rename_i apart
      have elsewhere := placed.held worker index'
      rw [here] at elsewhere
      exact iff_of_false (by simpa [elsewhere] using Ne.symm apart) (by simp)
  · -- The callbacks have returned, so freeing completes the life.
    have before := placed.life worker
    rw [here] at before
    simp [before, CeTp.lifeAt, at_, RoutinePc.life, CeTpWorker.ranLife]
  · intro other apart same
    rw [holds] at same
    exact apart (Option.some.inj same).symm
  · intro other apart same
    cases same
  · intro other apart
    simp [history_cons_of_ne apart.symm]

/-- A new worker is queued behind the others. -/
theorem insert (placed : Placed tp trace place) (completeCb : Bool) :
    Placed (tp.insert completeCb).1 (trace ++ (tp.insert completeCb).2)
      (Function.update place { id := tp.allocated, completeCb := completeCb } .queued) := by
  have new := placed.fresh { id := tp.allocated, completeCb := completeCb } (Nat.le_refl _)
  -- A new worker is not queued already, as it has no place yet.
  have absent : { id := tp.allocated, completeCb := completeCb } ∉ tp.pool.workerQueue := by
    rw [placed.queued, new]
    simp
  refine placed.moves ?_ (Nat.le_succ _) (Nat.lt_succ_self _) ?_ ?_ ?_ ?_
    (fun _ _ _ => ⟨Iff.rfl, fun _ => rfl⟩) ?_ placed.fits
  · refine List.Nodup.append placed.nodup (List.nodup_singleton _) ?_
    intro other inside same
    rw [List.mem_singleton.mp same] at inside
    exact absent inside
  · simp [CeTp.insert]
  · -- No thread holds a worker that did not exist.
    intro index
    have elsewhere := placed.held { id := tp.allocated, completeCb := completeCb } index
    rw [new] at elsewhere
    exact iff_of_false (fun holds => by cases elsewhere.mp holds) (by simp)
  · have before := placed.life { id := tp.allocated, completeCb := completeCb }
    rw [new] at before
    simp [before, CeTp.lifeAt, CeTp.insert]
  · intro other apart
    simp [CeTp.insert, apart]
  · intro other apart
    simp [CeTp.insert, history_cons_of_ne apart.symm]

/-- The first worker of the queue is freed by `ce_tp_destroy`. -/
theorem clean (placed : Placed tp trace place) {worker : CeTpWorker} {others : List CeTpWorker}
    (first : tp.pool.workerQueue = worker :: others) :
    Placed { tp with pool := { tp.pool with workerQueue := others } }
      (trace ++ [(worker, .freedByDestroy)]) (Function.update place worker .cleaned) := by
  have inside : worker ∈ tp.pool.workerQueue := by simp [first]
  have here := (placed.queued worker).mp inside
  have nodup := placed.nodup
  rw [first, List.nodup_cons] at nodup
  refine placed.moves nodup.2 (Nat.le_refl _) ?_ ?_ ?_ ?_ ?_
    (fun _ _ _ => ⟨Iff.rfl, fun _ => rfl⟩) ?_ placed.fits
  · exact placed.allocated_of_place (by simp [here])
  · exact iff_of_false nodup.1 (by simp)
  · intro index
    have elsewhere := placed.held worker index
    rw [here] at elsewhere
    exact iff_of_false (by simpa using elsewhere) (by simp)
  · -- A queued worker that is freed was only ever registered.
    have before := placed.life worker
    rw [here] at before
    simp [before, CeTp.lifeAt, cleanedLife]
  · intro other apart
    simp [first, apart]
  · intro other apart
    simp [history_cons_of_ne apart.symm]

/-- Every step brings each worker to its next place. -/
theorem step (placed : Placed tp trace place) {type : CeTpKill} {action : PoolAction n}
    {next : CeTp n} {events : List PoolEvent} (move : PoolMove type tp action next events) :
    ∃ place', Placed next (trace ++ events) place' := by
  -- Steps that move no worker keep every place; the others move one.
  cases move with
  | stay | call | drained | abort | join | joined | done =>
    rw [List.append_nil]
    exact ⟨place, placed.nodup, placed.fresh, placed.queued, placed.held, placed.life, placed.fits⟩
  | turn index pc running on worker life fits =>
    rw [List.append_nil]
    exact ⟨place, placed.turn worker life fits⟩
  | leave index running idle aborted drained =>
    rw [List.append_nil]
    exact ⟨place, placed.turn idle.symm (RoutinePc.life_of_idle idle).symm trivial⟩
  | callback index pc worker event kind holds keeps life fits =>
    exact ⟨_, placed.callback holds keeps life fits⟩
  | take index worker others running idle first => exact ⟨_, placed.take idle first⟩
  | free index worker at_ => exact ⟨_, placed.free at_⟩
  | registerOutside completeCb open_ => exact ⟨_, placed.insert completeCb⟩
  | registerInside index completeCb callback worker at_ =>
    -- The thread goes on with its own worker behind the insertion.
    have there : (tp.insert completeCb).1.thread index =
        .calling callback worker (some completeCb) := at_
    refine ⟨_, (placed.insert completeCb).turn ?_ ?_ ?_⟩
    · rw [there]
      rfl
    · rw [there]
      cases callback <;> rfl
    · have fits := placed.fits index
      rw [at_] at fits
      cases callback <;> exact fits
  | clean worker others at_ first => exact ⟨_, placed.clean first⟩

end Placed

end Cevent
