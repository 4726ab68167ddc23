import Cevent.Library.Ranged
import Mathlib.Algebra.Group.Int.Defs
import Mathlib.Algebra.Group.Nat.Defs

/-! The type `int` of the machine: its range, and the value that is left of a larger one. -/

namespace Cevent

/-- The largest `int`. -/
def intMax : Int := 2 ^ 31 - 1

/-- The smallest `int`. -/
def intMin : Int := -2 ^ 31

/-- The values of an `int`. -/
def intRange : Ranged.Range where
  least := intMin
  greatest := intMax

/-- The `int` that is left of a value. -/
def wrapInt (value : Int) : Int := value.bmod (2 ^ 32)

/-- A value that is an `int` is left as it is. -/
theorem wrapInt_of_le {value : Int} (positive : 0 ≤ value) (small : value ≤ intMax) :
    wrapInt value = value := by
  unfold wrapInt
  unfold intMax at small
  apply Int.bmod_eq_of_le <;> omega

end Cevent
