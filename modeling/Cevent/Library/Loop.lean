import Mathlib.Data.List.Basic

/-! Loops whose body reports what it does, and goes on only while a measure gets smaller. -/

namespace BoundedLoop

universe u v w

/-- One pass of a loop body: the state after it, what it did, and how it left the loop, if it did. -/
structure Pass (σ : Type u) (ε : Type v) (κ : Type w) where
  state : σ
  events : List ε
  exit : Option κ

variable {σ : Type u} {ε : Type v} {κ : Type w}

/-- The body repeated until it leaves the loop, for at most so many passes. -/
def loop (body : σ → Pass σ ε κ) : Nat → σ → Pass σ ε κ
  | 0, s => { state := s, events := [], exit := none }
  | fuel + 1, s =>
    match (body s).exit with
    | some _ => body s
    | none =>
      let rest := loop body fuel (body s).state
      { rest with events := (body s).events ++ rest.events }

/-- The body repeated as often as the measure of its first state allows. -/
def run (body : σ → Pass σ ε κ) (measure : σ → Nat) (s : σ) : Pass σ ε κ :=
  loop body (measure s + 1) s

variable {body : σ → Pass σ ε κ} {measure : σ → Nat}

/-- A pass that leaves the loop is the last one. -/
theorem loop_exit {fuel : Nat} {s : σ} {how : κ} (leaves : (body s).exit = some how) :
    loop body (fuel + 1) s = body s := by
  simp [loop, leaves]

/-- A pass that stays in the loop is followed by the others. -/
theorem loop_again {fuel : Nat} {s : σ} (stays : (body s).exit = none) :
    loop body (fuel + 1) s =
      { loop body fuel (body s).state with
        events := (body s).events ++ (loop body fuel (body s).state).events } := by
  simp [loop, stays]

/-- Any fuel above the measure gives the same run. -/
theorem loop_fuel_eq
    (shrinks : ∀ s, (body s).exit = none → measure (body s).state < measure s)
    {fuel fuel' : Nat} {s : σ} (enough : measure s < fuel) (enough' : measure s < fuel') :
    loop body fuel s = loop body fuel' s := by
  -- Each pass that stays uses one unit of both fuels and lowers the measure.
  induction fuel generalizing s fuel' with
  | zero => omega
  | succ fuel ih =>
    cases fuel' with
    | zero => omega
    | succ fuel' =>
      cases how : (body s).exit with
      | some _ => rw [loop_exit how, loop_exit how]
      | none =>
        have smaller := shrinks s how
        have same : loop body fuel (body s).state = loop body fuel' (body s).state :=
          ih (by omega) (by omega)
        rw [loop_again how, loop_again how, same]

/-- More fuel than the measure asks for does not change a run. -/
theorem loop_eq_run (shrinks : ∀ s, (body s).exit = none → measure (body s).state < measure s)
    {fuel : Nat} {s : σ} (enough : measure s < fuel) : loop body fuel s = run body measure s :=
  loop_fuel_eq shrinks enough (Nat.lt_succ_self _)

/-- A run whose first pass leaves the loop is that pass. -/
theorem run_exit {s : σ} {how : κ} (leaves : (body s).exit = some how) :
    run body measure s = body s :=
  loop_exit leaves

/-- A run whose first pass stays in the loop goes on as a run from there. -/
theorem run_again (shrinks : ∀ s, (body s).exit = none → measure (body s).state < measure s)
    {s : σ} (stays : (body s).exit = none) :
    run body measure s =
      { run body measure (body s).state with
        events := (body s).events ++ (run body measure (body s).state).events } := by
  -- The fuel left after the first pass is enough for the state that it leaves.
  have smaller := shrinks s stays
  have same : loop body (measure s) (body s).state = run body measure (body s).state :=
    loop_eq_run shrinks smaller
  rw [run, loop_again stays, same]

/--
What holds of every last pass, and of a run once it holds of the rest of it, holds of every run.

This is the induction over the passes, with the fuel out of sight.
-/
theorem run_induction (body : σ → Pass σ ε κ) (measure : σ → Nat)
    (shrinks : ∀ s, (body s).exit = none → measure (body s).state < measure s)
    {motive : σ → Pass σ ε κ → Prop}
    (exit : ∀ s how, (body s).exit = some how → motive s (body s))
    (again : ∀ s rest, (body s).exit = none → motive (body s).state rest →
      motive s { rest with events := (body s).events ++ rest.events }) (s : σ) :
    motive s (run body measure s) := by
  -- The induction is on the measure, which each pass that stays in the loop lowers.
  induction size : measure s using Nat.strongRecOn generalizing s with
  | ind n ih =>
    cases how : (body s).exit with
    | some _ =>
      rw [run_exit how]
      exact exit s _ how
    | none =>
      rw [run_again shrinks how]
      exact again s _ how (ih _ (size ▸ shrinks s how) _ rfl)

end BoundedLoop
