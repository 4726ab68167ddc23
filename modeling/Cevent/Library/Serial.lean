import Mathlib.Data.List.Induction

/-! Operations that threads make in two steps each, and the traces in which they do not overlap. -/

namespace Interleaving

universe u v

/-- One of the two steps of an operation on an item. -/
inductive Half (θ : Type u) (ι : Type v) where
  | first (thread : θ) (item : ι)
  | second (thread : θ) (item : ι)
  deriving DecidableEq

variable {θ : Type u} {ι : Type v}

/-- The trace of operations that are made one after the other. -/
def wholeOperations (operations : List (θ × ι)) : List (Half θ ι) :=
  operations.flatMap fun operation =>
    [.first operation.1 operation.2, .second operation.1 operation.2]

/-- No operation of the trace overlaps another one, and at most the last one is unfinished. -/
inductive Serial : List (Half θ ι) → Option (θ × ι) → Prop where
  | nil : Serial [] none
  | first {trace : List (Half θ ι)} (thread : θ) (item : ι) (finished : Serial trace none) :
      Serial (trace ++ [.first thread item]) (some (thread, item))
  | second {trace : List (Half θ ι)} {thread : θ} {item : ι}
      (started : Serial trace (some (thread, item))) :
      Serial (trace ++ [.second thread item]) none

/-- An operation may begin when all operations before it are finished. -/
theorem serial_snoc_first {trace : List (Half θ ι)} {thread : θ} {item : ι} :
    (∃ unfinished, Serial (trace ++ [.first thread item]) unfinished) ↔ Serial trace none := by
  constructor
  · intro serial
    obtain ⟨unfinished, serial⟩ := serial
    -- The last rule can only be the one that adds a first step.
    generalize whole : trace ++ [.first thread item] = longer at serial
    cases serial with
    | nil => simp at whole
    | first thread' item' finished =>
      obtain ⟨rfl, -⟩ := List.append_inj' whole rfl
      exact finished
    | second started =>
      obtain ⟨-, last⟩ := List.append_inj' whole rfl
      simp at last
  · intro finished
    exact ⟨_, .first thread item finished⟩

/-- An operation may be finished when it is the one that has begun. -/
theorem serial_snoc_second {trace : List (Half θ ι)} {thread : θ} {item : ι} :
    (∃ unfinished, Serial (trace ++ [.second thread item]) unfinished) ↔
      Serial trace (some (thread, item)) := by
  constructor
  · intro serial
    obtain ⟨unfinished, serial⟩ := serial
    -- The last rule can only be the one that adds a second step.
    generalize whole : trace ++ [.second thread item] = longer at serial
    cases serial with
    | nil => simp at whole
    | first thread' item' finished =>
      obtain ⟨-, last⟩ := List.append_inj' whole rfl
      simp at last
    | second started =>
      obtain ⟨rfl, last⟩ := List.append_inj' whole rfl
      cases last
      exact started
  · intro started
    exact ⟨_, .second started⟩

/-- A serial trace that ends with all operations finished is made of whole operations. -/
theorem Serial.eq_wholeOperations {trace : List (Half θ ι)} {unfinished : Option (θ × ι)}
    (serial : Serial trace unfinished) : ∃ operations, trace =
      wholeOperations operations ++ unfinished.toList.map fun op => .first op.1 op.2 := by
  induction serial with
  | nil => exact ⟨[], rfl⟩
  | first thread item finished ih =>
    obtain ⟨operations, rfl⟩ := ih
    exact ⟨operations, by simp⟩
  | @second trace thread item started ih =>
    -- The step that is added completes the operation left over before it.
    obtain ⟨operations, rfl⟩ := ih
    exact ⟨operations ++ [(thread, item)], by simp [wholeOperations]⟩

/-- Whole operations make a serial trace. -/
theorem serial_wholeOperations (operations : List (θ × ι)) :
    Serial (wholeOperations operations) none := by
  -- The two steps of the last operation are added by the two rules in turn.
  induction operations using List.reverseRecOn with
  | nil => exact .nil
  | append_singleton operations operation ih =>
    have grown := (ih.first operation.1 operation.2).second
    rw [List.append_assoc] at grown
    simpa [wholeOperations] using grown

variable [DecidableEq θ]

/-- The item that a thread has begun to work on and not finished, given what it had before. -/
def Half.under (thread : θ) (before : Option ι) : Half θ ι → Option ι
  | .first other item => if other = thread then some item else before
  | .second other _ => if other = thread then none else before

/-- The item that a thread has begun to work on and not finished. -/
def unfinishedBy (thread : θ) (trace : List (Half θ ι)) : Option ι :=
  trace.foldl (Half.under thread) none

@[simp] theorem unfinishedBy_nil (thread : θ) :
    unfinishedBy thread ([] : List (Half θ ι)) = none := rfl

@[simp] theorem unfinishedBy_snoc (thread : θ) (trace : List (Half θ ι)) (half : Half θ ι) :
    unfinishedBy thread (trace ++ [half]) = half.under thread (unfinishedBy thread trace) := by
  simp [unfinishedBy]

/-- In a serial trace, the one unfinished operation is that of its thread, and no other has any. -/
theorem Serial.unfinishedBy_eq {trace : List (Half θ ι)} {unfinished : Option (θ × ι)}
    (serial : Serial trace unfinished) (thread : θ) :
    unfinishedBy thread trace =
      unfinished.bind fun operation => if operation.1 = thread then some operation.2 else none := by
  -- The induction follows how the trace was put together, step by step.
  induction serial with
  | nil => rfl
  | first other item finished ih => simp [ih, Half.under]
  | second started ih =>
    -- Only the thread that finishes had begun anything.
    rw [unfinishedBy_snoc, ih, Half.under]
    split_ifs with same <;> simp [same]

/-- In a serial trace, what a thread has begun is the unfinished operation. -/
theorem Serial.eq_of_unfinishedBy {trace : List (Half θ ι)} {unfinished : Option (θ × ι)}
    (serial : Serial trace unfinished) {thread : θ} {item : ι}
    (begun : unfinishedBy thread trace = some item) : unfinished = some (thread, item) := by
  -- A thread that has begun something is the thread of the unfinished operation.
  rw [serial.unfinishedBy_eq thread] at begun
  obtain ⟨operation, is, own⟩ := Option.bind_eq_some_iff.mp begun
  split_ifs at own with same
  rw [is, ← same, ← Option.some.inj own]

/-- A serial trace is finished just when no thread has begun anything. -/
theorem Serial.finished_iff {trace : List (Half θ ι)} {unfinished : Option (θ × ι)}
    (serial : Serial trace unfinished) :
    unfinished = none ↔ ∀ thread, unfinishedBy thread trace = none := by
  constructor
  · intro finished thread
    rw [serial.unfinishedBy_eq thread, finished]
    rfl
  · intro idle
    cases unfinished with
    | none => rfl
    | some operation =>
      -- The thread of an unfinished operation would have begun it.
      have busy := serial.unfinishedBy_eq operation.1
      rw [idle operation.1] at busy
      simp at busy

/-- The items that a thread begins to work on, in order. -/
def itemsOf (thread : θ) (trace : List (Half θ ι)) : List ι :=
  trace.filterMap fun
    | .first other item => if other = thread then some item else none
    | .second _ _ => none

/-- Among whole operations, those of a thread are on the items that it begins to work on. -/
theorem itemsOf_wholeOperations (thread : θ) (operations : List (θ × ι)) :
    itemsOf thread (wholeOperations operations) =
      (operations.filter fun operation => operation.1 = thread).map (·.2) := by
  induction operations with
  | nil => rfl
  | cons operation operations ih =>
    -- The first operation comes before the others, and its second step adds no item.
    have tail : itemsOf thread (wholeOperations (operation :: operations)) =
        itemsOf thread [.first operation.1 operation.2, .second operation.1 operation.2] ++
          itemsOf thread (wholeOperations operations) := List.filterMap_append
    rw [tail, ih]
    by_cases own : operation.1 = thread <;> simp [itemsOf, own]

end Interleaving
