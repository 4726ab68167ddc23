import Cevent.Library.Machine
import Mathlib.Data.Fintype.Fin

/-! `ce_tp_create` and the threads it creates, until each has counted itself in `routines`. -/

namespace Cevent

open Interleaving

/-- Where a thread of the pool stands with `pool->routines++`, which reads it and then writes it. -/
inductive RoutineStart where
  /-- `pthread_create` was not called for it. -/
  | absent
  | created
  /-- It has read `routines`, and is about to write one more. -/
  | counting (routines : Nat)
  /-- It has counted itself, and goes on to its loop. -/
  | started
  deriving DecidableEq, Repr

/-- Where `ce_tp_create` stands. -/
inductive CreatePc where
  /-- At the condition of the loop over the threads. -/
  | creating (index : Nat)
  /-- The thread of an index is created, and `routines` is looked at until it is large enough. -/
  | waiting (index : Nat)
  | returned
  deriving DecidableEq, Repr

/-- A pool that is being created with its threads. -/
structure TpCreation (n : Nat) where
  routines : Nat
  thread : Fin n → RoutineStart
  creator : CreatePc

/-- A step of `ce_tp_create`, or of `ce_tp_routine` in one thread. -/
inductive CreationAction (n : Nat) where
  | create
  | routine (index : Fin n)
  deriving DecidableEq, Repr

/-- How many threads `ce_tp_create` has created. -/
def CreatePc.created (n : Nat) : CreatePc → Nat
  | .creating index => index
  | .waiting index => index + 1
  | .returned => n

/-- How many times it has left the loop that waits. -/
def CreatePc.passed (n : Nat) : CreatePc → Nat
  | .creating index | .waiting index => index
  | .returned => n

namespace TpCreation

variable {n : Nat}

/-- The pool that `ce_calloc` made, before the first thread is created. -/
def init (n : Nat) : TpCreation n where
  routines := 0
  thread := fun _ => .absent
  creator := .creating 0

/-- The threads that exist. -/
def created (s : TpCreation n) : Finset (Fin n) :=
  {index | s.thread index ≠ .absent}

/-- The threads that have counted themselves. -/
def started (s : TpCreation n) : Finset (Fin n) :=
  {index | s.thread index = .started}

/-- A thread goes on to another place. -/
def goto (s : TpCreation n) (index : Fin n) (place : RoutineStart) : TpCreation n :=
  { s with thread := Function.update s.thread index place }

/-- The next step of `ce_tp_create`. -/
def ceTpCreate (s : TpCreation n) : Option (TpCreation n) :=
  match s.creator with
  | .creating index =>
    if below : index < n then
      some { s.goto ⟨index, below⟩ .created with creator := .waiting index }
    else
      some { s with creator := .returned }
  | .waiting index =>
    -- The value waited for is the size of the pool, whatever the index is.
    some { s with creator := if s.routines < n then .waiting index else .creating (index + 1) }
  | .returned => none

/-- The next step of a thread in `pool->routines++`. -/
def ceTpRoutine (s : TpCreation n) (index : Fin n) : Option (TpCreation n) :=
  match s.thread index with
  | .absent | .started => none
  | .created => some (s.goto index (.counting s.routines))
  | .counting routines => some { s.goto index .started with routines := routines + 1 }

/-- A thread that goes on to a place is there, and the others stay where they are. -/
theorem goto_thread (s : TpCreation n) (index : Fin n) (place : RoutineStart) (other : Fin n) :
    (s.goto index place).thread other = if other = index then place else s.thread other :=
  Function.update_apply ..

/-- Behind it that thread exists, and of the others those that did. -/
theorem exists_goto {s : TpCreation n} {index other : Fin n} {place : RoutineStart}
    (after : place ≠ .absent) :
    (s.goto index place).thread other ≠ .absent ↔ other = index ∨ s.thread other ≠ .absent := by
  rw [goto_thread]
  by_cases same : other = index <;> simp [same, after]

/-- A thread that starts is one more. -/
theorem started_goto (s : TpCreation n) (index : Fin n) :
    (s.goto index .started).started = insert index s.started := by
  ext other
  simp only [started, goto_thread, Finset.mem_filter, Finset.mem_univ, true_and, Finset.mem_insert]
  by_cases same : other = index <;> simp [same]

/-- The threads that have started stay the same when one that has not goes elsewhere. -/
theorem started_goto_of_ne {s : TpCreation n} {index : Fin n} {place : RoutineStart}
    (before : s.thread index ≠ .started) (after : place ≠ .started) :
    (s.goto index place).started = s.started := by
  refine Finset.filter_congr ?_
  intro other _
  rw [goto_thread]
  split
  · rename_i same
    rw [same]
    exact iff_of_false after before
  · exact Iff.rfl

end TpCreation

/-- `ce_tp_create` and the threads it has created take their steps in any order. -/
def creationMachine (n : Nat) : Machine (TpCreation n) (CreationAction n) Empty where
  step s action :=
    match action with
    | .create => s.ceTpCreate.map fun next => (next, [])
    | .routine index => (s.ceTpRoutine index).map fun next => (next, [])

/-- A waiting creation has threads enough to go on, and a finished one has started all of them. -/
structure CreationFinishes {n : Nat} (s : TpCreation n) : Prop where
  enough : ∀ index, s.creator = .waiting index → n ≤ s.created.card
  all : s.creator = .returned → s.started.card = n

/-- How the threads, `routines` and the loop of `ce_tp_create` go together. -/
structure CreationInv {n : Nat} (s : TpCreation n) : Prop where
  bounded : s.creator.created n ≤ n
  created : ∀ index : Fin n, s.thread index ≠ .absent ↔ index.val < s.creator.created n
  /-- `routines` misses the threads whose count another one wrote over. -/
  routines : s.routines ≤ s.started.card
  counting : ∀ index seen, s.thread index = .counting seen → seen ≤ s.started.card
  passed : 0 < s.creator.passed n → n ≤ s.started.card

namespace CreationInv

variable {n : Nat} {s : TpCreation n}

/-- A pool without threads has it. -/
theorem init (n : Nat) : CreationInv (TpCreation.init n) where
  bounded := Nat.zero_le n
  created index := by simp [TpCreation.init, CreatePc.created]
  routines := Nat.zero_le _
  counting index seen place := by cases place
  passed left := by cases left

/-- The threads that exist are the first ones. -/
theorem card_created (inv : CreationInv s) : s.created.card = s.creator.created n := by
  have first : s.created =
      Finset.univ.filter fun index : Fin n => index.val < s.creator.created n :=
    Finset.filter_congr fun index _ => inv.created index
  rw [first, Fin.card_filter_val_lt, min_eq_right inv.bounded]

/-- A thread has started only if it was created. -/
theorem started_subset (s : TpCreation n) : s.started ⊆ s.created := by
  intro index member
  have place : s.thread index = .started := by simpa [TpCreation.started] using member
  simp [TpCreation.created, place]

/-- `routines` never exceeds the number of threads that were created. -/
theorem routines_le (inv : CreationInv s) : s.routines ≤ s.creator.created n := by
  calc s.routines ≤ s.started.card := inv.routines
    _ ≤ s.created.card := Finset.card_le_card (started_subset s)
    _ = s.creator.created n := inv.card_created

/-- A step of `ce_tp_create` keeps it. -/
theorem ceTpCreate (inv : CreationInv s) {next : TpCreation n} (taken : s.ceTpCreate = some next) :
    CreationInv next := by
  unfold TpCreation.ceTpCreate at taken
  have bounded := inv.bounded
  have created := inv.created
  have passed := inv.passed
  cases place : s.creator with
  | creating index =>
    simp only [place, CreatePc.created, CreatePc.passed] at taken bounded created passed
    split at taken
    · -- The thread that is created did not exist before.
      rename_i below
      cases taken
      have absent : s.thread ⟨index, below⟩ = .absent := by
        by_contra exists_
        exact absurd ((created _).mp exists_) (lt_irrefl index)
      have same : (s.goto ⟨index, below⟩ .created).started = s.started :=
        TpCreation.started_goto_of_ne (by simp [absent]) (by simp)
      refine ⟨below, ?_, same ▸ inv.routines, ?_, same ▸ passed⟩
      · -- The threads that exist are those of before and the new one, so still the first ones.
        intro other
        have rank : other = ⟨index, below⟩ ↔ other.val = index := Fin.ext_iff
        refine (TpCreation.exists_goto (by simp)).trans ?_
        rw [rank, created other]
        simp only [CreatePc.created]
        omega
      · intro other seen place
        rw [TpCreation.goto_thread] at place
        split at place
        · cases place
        · exact same ▸ inv.counting other seen place
    · rename_i all
      cases taken
      -- The loop ends behind the last thread.
      have whole : index = n := by omega
      subst whole
      exact ⟨le_refl _, created, inv.routines, inv.counting, passed⟩
  | waiting index =>
    simp only [place, CreatePc.created, Option.some.injEq] at taken bounded created
    rw [place] at passed
    subst taken
    split
    · exact ⟨bounded, created, inv.routines, inv.counting, passed⟩
    · rename_i enough
      -- What is counted has started, so enough threads have when the wait ends.
      exact ⟨bounded, created, inv.routines, inv.counting,
        fun _ => (Nat.le_of_not_lt enough).trans inv.routines⟩
  | returned => simp [place] at taken

/-- So does a step of a thread that counts itself. -/
theorem ceTpRoutine (inv : CreationInv s) {next : TpCreation n} {index : Fin n}
    (taken : s.ceTpRoutine index = some next) : CreationInv next := by
  unfold TpCreation.ceTpRoutine at taken
  -- Only a thread that exists takes a step.
  have exists_iff (there : s.thread index ≠ .absent) (other : Fin n) :
      other = index ∨ s.thread other ≠ .absent ↔ other.val < s.creator.created n := by
    rw [← inv.created other]
    exact or_iff_right_of_imp fun same => same ▸ there
  cases before : s.thread index with
  | absent => simp [before] at taken
  | started => simp [before] at taken
  | created =>
    simp only [before, Option.some.injEq] at taken
    subst taken
    -- It has read `routines`, which is no more than the number of threads that have started.
    have same : (s.goto index (.counting s.routines)).started = s.started :=
      TpCreation.started_goto_of_ne (by simp [before]) (by simp)
    refine ⟨inv.bounded, ?_, same ▸ inv.routines, ?_, same ▸ inv.passed⟩
    · intro other
      exact (TpCreation.exists_goto (by simp)).trans (exists_iff (by simp [before]) other)
    · intro other seen place
      rw [TpCreation.goto_thread] at place
      rw [same]
      split at place
      · cases place
        exact inv.routines
      · exact inv.counting other seen place
  | counting routines =>
    simp only [before, Option.some.injEq] at taken
    subst taken
    -- What it writes is one more than it has read, and one more thread has started.
    have one : (s.goto index .started).started.card = s.started.card + 1 := by
      have new : index ∉ s.started := by simp [TpCreation.started, before]
      rw [TpCreation.started_goto, Finset.card_insert_of_notMem new]
    refine ⟨inv.bounded, ?_, ?_, ?_, ?_⟩
    · intro other
      exact (TpCreation.exists_goto (by simp)).trans (exists_iff (by simp [before]) other)
    · exact (Nat.succ_le_succ (inv.counting index routines before)).trans one.ge
    · intro other seen place
      change (s.goto index .started).thread other = _ at place
      change _ ≤ (s.goto index .started).started.card
      rw [TpCreation.goto_thread] at place
      split at place
      · cases place
      · have := inv.counting other seen place
        omega
    · intro left
      have := inv.passed left
      change _ ≤ (s.goto index .started).started.card
      omega

/-- Every step keeps it. -/
theorem step (inv : CreationInv s) {action : CreationAction n} {next : TpCreation n}
    {events : List Empty} (taken : (creationMachine n).step s action = some (next, events)) :
    CreationInv next := by
  cases action with
  | create =>
    obtain ⟨_, stepped, made⟩ := Option.map_eq_some_iff.mp taken
    cases made
    exact inv.ceTpCreate stepped
  | routine index =>
    obtain ⟨_, stepped, made⟩ := Option.map_eq_some_iff.mp taken
    cases made
    exact inv.ceTpRoutine stepped

end CreationInv

section Runs

variable {n : Nat} {actions : List (CreationAction n)} {last : TpCreation n} {trace : List Empty}

/-- It holds after every run. -/
theorem creationInv_reached
    (ran : (creationMachine n).exec (TpCreation.init n) actions = some (last, trace)) :
    CreationInv last :=
  (creationMachine n).exec_invariant (fun s _ => CreationInv s) (CreationInv.init n)
    (fun _ _ _ _ _ inv taken => inv.step taken) ran

/-- When `ce_tp_create` returns, all of its threads have started, whatever counts were lost. -/
theorem create_returns_started (positive : 1 ≤ n)
    (ran : (creationMachine n).exec (TpCreation.init n) actions = some (last, trace))
    (returned : last.creator = .returned) : last.started.card = n := by
  have inv := creationInv_reached ran
  have enough : n ≤ last.started.card := inv.passed (by rw [returned]; exact positive)
  have within : last.started.card ≤ n := by simpa using Finset.card_le_univ last.started
  omega

/-- A pool of two threads or more is never created: it waits for threads that do not exist. -/
theorem create_never_returns (many : 2 ≤ n)
    (ran : (creationMachine n).exec (TpCreation.init n) actions = some (last, trace)) :
    last.creator = .creating 0 ∨ last.creator = .waiting 0 := by
  refine ((creationMachine n).exec_invariant
    (fun s _ => CreationInv s ∧ (s.creator = .creating 0 ∨ s.creator = .waiting 0))
    ⟨CreationInv.init n, .inl rfl⟩ ?_ ran).2
  intro s before action next events inv taken
  refine ⟨inv.1.step taken, ?_⟩
  have few := inv.1.routines_le
  cases action with
  | create =>
    obtain ⟨_, stepped, made⟩ := Option.map_eq_some_iff.mp taken
    cases made
    unfold TpCreation.ceTpCreate at stepped
    rcases inv.2 with place | place
    · have positive : 0 < n := by omega
      simp only [place, positive, ↓reduceDIte, Option.some.injEq] at stepped
      subst stepped
      exact .inr rfl
    · -- Only one thread can have counted itself.
      have short : s.routines < n := by
        rw [place] at few
        simp only [CreatePc.created] at few
        omega
      simp only [place, short, ↓reduceIte, Option.some.injEq] at stepped
      subst stepped
      exact .inr rfl
  | routine index =>
    obtain ⟨_, stepped, made⟩ := Option.map_eq_some_iff.mp taken
    cases made
    unfold TpCreation.ceTpRoutine at stepped
    -- No step of a thread moves `ce_tp_create`.
    split at stepped
    all_goals cases stepped
    all_goals exact inv.2

end Runs

/-- The run in which a pool creates its first thread, and nothing else happens. -/
theorem create_first {n : Nat} (positive : 0 < n) : ∃ last,
    (creationMachine n).exec (TpCreation.init n) [.create] = some (last, []) ∧
      last.creator = .waiting 0 := by
  simp [Machine.exec, creationMachine, TpCreation.ceTpCreate, TpCreation.init, positive]

/--
The creation of a pool can always finish just when the pool has one thread.

It is so in every state that any interleaving with the threads it has created reaches.
-/
theorem creation_finishes_iff (n : Nat) (positive : 1 ≤ n) :
    (∀ actions last trace,
      (creationMachine n).exec (TpCreation.init n) actions = some (last, trace) →
        CreationFinishes last) ↔ n = 1 := by
  constructor
  · intro finishes
    -- The first wait has one thread, and waits for all of them.
    obtain ⟨last, ran, waits⟩ := create_first positive
    have inv := creationInv_reached ran
    have enough := (finishes _ _ _ ran).enough 0 waits
    rw [inv.card_created, waits] at enough
    exact Nat.le_antisymm enough positive
  · intro single actions last trace ran
    have inv := creationInv_reached ran
    refine ⟨?_, create_returns_started positive ran⟩
    intro index waits
    rw [inv.card_created, waits, single]
    exact Nat.succ_le_succ (Nat.zero_le index)

/-- So it is not so for a pool of five threads. -/
theorem creation_finishes_iff_five : 1 ≤ 5 ∧ ((∀ actions last trace,
    (creationMachine 5).exec (TpCreation.init 5) actions = some (last, trace) →
      CreationFinishes last) ↔ 5 = 1) :=
  ⟨by decide, creation_finishes_iff 5 (by decide)⟩

/-- With one of five threads created, `ce_tp_create` waits for five. -/
theorem not_creation_finishes_five : ¬ ∀ actions last trace,
    (creationMachine 5).exec (TpCreation.init 5) actions = some (last, trace) →
      CreationFinishes last := by
  intro finishes
  have enough := (finishes [.create] _ _ rfl).enough 0 rfl
  revert enough
  decide

end Cevent
