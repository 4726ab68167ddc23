import Mathlib.Data.Option.Basic

/-! Integer arithmetic that has no result where a value leaves a range, or a divisor is zero. -/

namespace Ranged

/-- The integers from one to another. -/
structure Range where
  least : Int
  greatest : Int

namespace Range

variable (r : Range)

/-- A value lies in the range. -/
def Holds (value : Int) : Prop := r.least ≤ value ∧ value ≤ r.greatest

instance (value : Int) : Decidable (r.Holds value) :=
  inferInstanceAs (Decidable (r.least ≤ value ∧ value ≤ r.greatest))

/-- A value that was computed, if it lies in the range. -/
def keep (value : Int) : Option Int := if r.Holds value then some value else none

/-- The remainder of a division that rounds towards zero, as C has it. -/
def rem (dividend divisor : Int) : Option Int :=
  if divisor = 0 then none
  else do
    -- Where the quotient has no result, the remainder has none either.
    let _ ← r.keep (dividend.tdiv divisor)
    r.keep (dividend.tmod divisor)

variable {r} {value : Int}

/-- A value in the range is the result. -/
theorem keep_of_holds (holds : r.Holds value) : r.keep value = some value := if_pos holds

/-- Only a value in the range has a result. -/
theorem keep_eq_none_iff : r.keep value = none ↔ ¬ r.Holds value := by
  unfold keep
  split <;> simp [*]

/-- The remainder of a position by a size is the position round the size. -/
theorem rem_of_nonneg {dividend divisor : Int} (zero : r.least ≤ 0) (nonneg : 0 ≤ dividend)
    (below : dividend ≤ r.greatest) (positive : 0 < divisor) :
    r.rem dividend divisor = some (dividend % divisor) := by
  -- Rounding towards zero is rounding down here, and both results are at most the dividend.
  have quotient := Int.ediv_le_self divisor nonneg
  have remainder := Int.emod_nonneg dividend (Int.ne_of_gt positive)
  have below' : dividend % divisor ≤ dividend := by
    rw [Int.emod_def]
    have := Int.mul_nonneg (Int.le_of_lt positive) (Int.ediv_nonneg nonneg (Int.le_of_lt positive))
    omega
  have first : r.Holds (dividend / divisor) :=
    ⟨Int.le_trans zero (Int.ediv_nonneg nonneg (Int.le_of_lt positive)), Int.le_trans quotient below⟩
  have second : r.Holds (dividend % divisor) :=
    ⟨Int.le_trans zero remainder, Int.le_trans below' below⟩
  rw [rem, if_neg (Int.ne_of_gt positive), Int.tdiv_eq_ediv_of_nonneg nonneg,
    Int.tmod_eq_emod_of_nonneg nonneg, keep_of_holds first, keep_of_holds second]
  rfl

end Range

end Ranged
