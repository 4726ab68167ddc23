import Mathlib.Data.List.Basic

/-! A first-in first-out queue that takes in no more values than it has room for. -/

universe u

/-- Values waiting in order of arrival, never more than the capacity. -/
@[ext] structure BoundedQueue (α : Type u) where
  capacity : Nat
  items : List α
  bounded : items.length ≤ capacity

namespace BoundedQueue

variable {α : Type u}

/-- A queue in which nothing waits. -/
def empty (capacity : Nat) : BoundedQueue α where
  capacity := capacity
  items := []
  bounded := Nat.zero_le capacity

/-- How many more values the queue takes in. -/
def room (q : BoundedQueue α) : Nat := q.capacity - q.items.length

/-- As many of the values as there is room for join the end of the queue, in order. -/
def push (q : BoundedQueue α) (values : List α) : BoundedQueue α where
  capacity := q.capacity
  items := q.items ++ values.take q.room
  bounded := by
    -- The values taken in are at most as many as there was room for.
    have fits := q.bounded
    rw [List.length_append, List.length_take, room]
    omega

/-- The first values leave the queue. -/
def pop (q : BoundedQueue α) (count : Nat) : BoundedQueue α where
  capacity := q.capacity
  items := q.items.drop count
  bounded := by
    -- Taking values away cannot pass the capacity.
    have fits := q.bounded
    rw [List.length_drop]
    omega

@[simp] theorem push_items (q : BoundedQueue α) (values : List α) :
    (q.push values).items = q.items ++ values.take q.room := rfl

@[simp] theorem pop_items (q : BoundedQueue α) (count : Nat) :
    (q.pop count).items = q.items.drop count := rfl

end BoundedQueue
